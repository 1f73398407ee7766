import RpcLock.Library.CondVar
import RpcLock.Library.Machine
import RpcLock.Rpcc.Client

/-!
# What a call returns: `got_pdu` and `cancel`

Two producers complete a call.  `got_pdu` takes in a reply unless the call is
done, `cancel` sets the result of every call in `calls_`.  The thread in `call1`
finds out later: a call stays in `calls_` from its entry to the last section of
`call1` under `m_`, whatever its `done` says.

The steps are the critical sections under `m_`, the end of the loop of `call1`,
and its last lines, where it reads the outcome.  The loop ends when the call is
done or its time is up, so that it may end at any moment.  `first` is the event
that completed a call first; no function reads it.
-/

namespace RpcLock.Rpcc

/-- An event that completes a call. -/
inductive Completion where
  | reply (r : Reply)
  | cancel
deriving DecidableEq, Repr

namespace Completion

def intret : Completion → Int
  | .reply r => r.ret
  | .cancel => RpcConst.cancelFailure

/-- What the call's `unmarshall` has taken in. -/
def un : Completion → Option Reply
  | .reply r => some r
  | .cancel => none

/-- What `call1` returns after this event, or after none. -/
def result : Option Completion → Int
  | some e => e.intret
  | none => RpcConst.timeoutFailure

end Completion

/-- Where the thread in `call1` is. -/
inductive CallerPhase where
  | looping
  /-- Out of the loop, and in `calls_`. -/
  | leaving
  /-- Out of `calls_`. -/
  | erased
  | returned (ret : Int)
deriving DecidableEq, Repr

/-- `rpcc::caller`. -/
structure Caller where
  xid : UInt32
  proc : UInt32
  /-- What `un` has taken in. -/
  un : Option Reply
  intret : Int
  done : Bool
  phase : CallerPhase
  first : Option Completion
deriving DecidableEq, Repr

/-- An `rpcc` and its callers. -/
structure Callers where
  /-- `xid_` -/
  xid : UInt32
  /-- `bind_done_` -/
  bindDone : Bool
  /-- `xid_rep_window_` -/
  window : List UInt32
  /-- `calls_`, with at most one entry for an xid. -/
  calls : List (UInt32 × Nat)
  /-- `destroy_wait_` -/
  destroyWait : Bool
  /-- `destroy_wait_c_` -/
  destroyWaitC : CondVar Nat
  /-- The activations of `call1` that got past its first section. -/
  callers : Nat → Option Caller

inductive CallersAct where
  /-- The first section of `call1`.  `junk` is the `intret` of a new `caller`. -/
  | call (t : Nat) (proc : UInt32) (junk : Int)
  /-- The loop of `call1` ends.  Its sends have returned. -/
  | leave (t : Nat)
  /-- The last section of `call1` under `m_`, and the thread it wakes. -/
  | erase (t : Nat) (woken : Option Nat)
  /-- The last lines of `call1`, under `ca.m`. -/
  | ret (t : Nat)
  /-- `bind` after its `call` returned 0. -/
  | bound (t : Nat)
  | gotPdu (r : Reply)
  /-- `cancel` up to its return or its wait. -/
  | cancel (k : Nat)
  /-- The thread wakes for no reason. -/
  | wake (k : Nat)
  /-- The thread has `m_` again. -/
  | resume (k : Nat)
deriving DecidableEq, Repr

namespace Caller

/-- `rpcc::caller::caller`, and the xid it gets. -/
def new (xid proc : UInt32) (junk : Int) : Caller := ⟨xid, proc, none, junk, false, .looping, none⟩

/-- `got_pdu` once it has found the call. -/
def gotPdu (r : Reply) (ca : Caller) : Caller :=
  if ca.done then ca
  else { ca with
    un := some r
    intret := r.ret
    done := true
    first := ca.first.or (some (.reply r)) }

/-- The body of the loop in `cancel`. -/
def cancel (ca : Caller) : Caller :=
  { ca with
    done := true
    intret := RpcConst.cancelFailure
    first := ca.first.or (some .cancel) }

/-- `ca.done? ca.intret : rpc_const::timeout_failure`. -/
def ret (ca : Caller) : Int := if ca.done then ca.intret else RpcConst.timeoutFailure

end Caller

namespace Callers

/-- `rpcc::rpcc`. -/
def init : Callers where
  xid := 1
  bindDone := false
  window := [0]
  calls := []
  destroyWait := false
  destroyWaitC := .empty
  callers _ := none

def modify (s : Callers) (t : Nat) (f : Caller → Caller) : Callers :=
  { s with callers := Function.update s.callers t ((s.callers t).map f) }

/-- The entry of an xid goes. -/
def eraseXid (calls : List (UInt32 × Nat)) (xid : UInt32) : List (UInt32 × Nat) :=
  calls.filter fun p => p.1 ≠ xid

/-- The first section of `call1`, which returns at once with `bind_failure` or
`cancel_failure`, or enters the call. -/
def call (s : Callers) (t : Nat) (proc : UInt32) (junk : Int) : Callers :=
  if (proc ≠ RpcConst.bind ∧ s.bindDone = false) ∨ (proc = RpcConst.bind ∧ s.bindDone = true) then s
  else if s.destroyWait then s
  else
    { s with
      xid := s.xid + 1
      calls := (s.xid, t) :: eraseXid s.calls s.xid
      callers := Function.update s.callers t (some (.new s.xid proc junk)) }

/-- `rpcc::got_pdu`, for a reply with a header. -/
def gotPdu (s : Callers) (r : Reply) : Callers :=
  let s := { s with window := updateXidRep s.window r.xid }
  match s.calls.lookup r.xid with
  | none => s
  | some t => s.modify t (Caller.gotPdu r)

/-- The second loop of `rpcc::cancel`: return, or wait for `calls_` to change. -/
def awaitEmpty (s : Callers) (k : Nat) : Callers :=
  if s.calls = [] then s
  else { s with destroyWait := true, destroyWaitC := s.destroyWaitC.park k }

/-- The first loop of `rpcc::cancel`. -/
def cancelAll (s : Callers) : Callers :=
  { s with
    callers := fun t =>
      if t ∈ s.calls.map Prod.snd then (s.callers t).map Caller.cancel else s.callers t }

/-- The last section of `call1` under `m_`. -/
def erase (s : Callers) (t : Nat) (ca : Caller) (woken : Option Nat) : Option Callers :=
  let s := { s with
    calls := eraseXid s.calls ca.xid
    window := updateXidRep s.window ca.xid
    callers := Function.update s.callers t (some { ca with phase := .erased }) }
  if s.destroyWait then
    (s.destroyWaitC.signal woken).map fun c => { s with destroyWaitC := c }
  else if woken = none then some s
  else none

/-- One step, where it is enabled. -/
def step (s : Callers) : CallersAct → Option Callers
  | .call t proc junk => if s.callers t = none then some (s.call t proc junk) else none
  | .leave t =>
      match s.callers t with
      | some ca =>
          if ca.phase = .looping then some (s.modify t fun ca => { ca with phase := .leaving })
          else none
      | none => none
  | .erase t woken =>
      match s.callers t with
      | some ca => if ca.phase = .leaving then s.erase t ca woken else none
      | none => none
  | .ret t =>
      match s.callers t with
      | some ca =>
          if ca.phase = .erased then
            some (s.modify t fun ca => { ca with phase := .returned ca.ret })
          else none
      | none => none
  | .bound t =>
      match s.callers t with
      | some ca =>
          if ca.proc = RpcConst.bind ∧ ca.phase = .returned 0 then some { s with bindDone := true }
          else none
      | none => none
  | .gotPdu r => some (s.gotPdu r)
  | .cancel k => if k ∈ s.destroyWaitC.threads then none else some (s.cancelAll.awaitEmpty k)
  | .wake k => (s.destroyWaitC.wake k).map fun c => { s with destroyWaitC := c }
  | .resume k =>
      (s.destroyWaitC.resume k).map fun c => { s with destroyWaitC := c }.awaitEmpty k

end Callers

/-- Any number of threads in `call1` and `cancel`, and any replies. -/
def callersMachine : Machine Callers CallersAct where
  init := .init
  next := Callers.step

/-! ## The outcome -/

/-- The call is in `calls_` unless its xid was used again. -/
def CallerPhase.InCalls (p : CallerPhase) : Prop := p = .looping ∨ p = .leaving

theorem CallerPhase.InCalls.not_returned {p : CallerPhase} (h : p.InCalls) (v : Int) :
    p ≠ .returned v := by
  rintro rfl
  rcases h with h | h <;> cases h

namespace Caller

variable {ca : Caller} {r : Reply}

/-- The outcome is that of the event that completed the call first. -/
structure Decided (ca : Caller) : Prop where
  done : ca.done = ca.first.isSome
  intret : ∀ e ∈ ca.first, ca.intret = e.intret
  un : ca.un = ca.first.bind Completion.un
  ret : ∀ v, ca.phase = .returned v → v = Completion.result ca.first

theorem decided_new (xid proc : UInt32) (junk : Int) : (new xid proc junk).Decided where
  done := rfl
  intret e he := by cases he
  un := rfl
  ret v hv := by cases hv

theorem Decided.first_eq_none (h : ca.Decided) (hd : ca.done = false) : ca.first = none := by
  rw [h.done, Option.isSome_eq_false_iff] at hd
  exact Option.isNone_iff_eq_none.mp hd

/-- A reply completes a call or changes nothing. -/
theorem Decided.gotPdu (h : ca.Decided) (hp : ca.phase.InCalls) : (ca.gotPdu r).Decided := by
  unfold Caller.gotPdu
  split
  · exact h
  · next hd =>
      have hfirst := h.first_eq_none (Bool.not_eq_true _ ▸ hd)
      rw [hfirst]
      refine ⟨rfl, fun e he => ?_, rfl, fun v hv => absurd hv (hp.not_returned v)⟩
      cases he
      rfl

/-- A cancellation leaves the outcome of a call what it is, exactly if the call is
not done or has failed in this way before. -/
theorem Decided.cancel_iff (h : ca.Decided) (hp : ca.phase.InCalls) :
    ca.cancel.Decided ↔ (ca.done = true → ca.intret = RpcConst.cancelFailure) := by
  have hnr (v : Int) : ca.phase ≠ .returned v := hp.not_returned v
  cases hf : ca.first with
  | none =>
      have hd : ca.done = false := by rw [h.done, hf]; rfl
      have hun : ca.un = none := by rw [h.un, hf]; rfl
      refine ⟨fun _ hdone => absurd hdone (by rw [hd]; decide), fun _ => ?_⟩
      unfold Caller.cancel
      rw [hf]
      refine ⟨rfl, fun e he => ?_, hun, fun v hv => absurd hv (hnr v)⟩
      cases he
      rfl
  | some e =>
      have hd : ca.done = true := by rw [h.done, hf]; rfl
      have he : ca.intret = e.intret := h.intret e hf
      unfold Caller.cancel
      rw [hf]
      constructor
      · intro hc _
        exact he.trans (hc.intret e rfl).symm
      · intro hfail
        refine ⟨rfl, fun e' he' => ?_, by rw [h.un, hf]; rfl, fun v hv => absurd hv (hnr v)⟩
        cases he'
        exact (hfail hd).symm.trans he

/-- `call1` goes on to a phase, and to its return with what it finds. -/
theorem Decided.setPhase (h : ca.Decided) {p : CallerPhase}
    (hp : ∀ v, p = .returned v → v = ca.ret) : ({ ca with phase := p } : Caller).Decided where
  done := h.done
  intret := h.intret
  un := h.un
  ret v hv := by
    rw [hp v hv]
    unfold Caller.ret
    rw [h.done]
    cases hf : ca.first with
    | none => rfl
    | some e => exact h.intret e hf

@[simp] theorem gotPdu_xid : (ca.gotPdu r).xid = ca.xid := by
  unfold gotPdu
  split <;> rfl

@[simp] theorem gotPdu_phase : (ca.gotPdu r).phase = ca.phase := by
  unfold gotPdu
  split <;> rfl

end Caller

/-! ## The steps -/

namespace Callers

variable {s s' : Callers} {a : CallersAct} {t k : Nat} {ca : Caller}

/-- What a step does to `calls_` and to the callers. -/
inductive Move (s : Callers) :
    CallersAct → List (UInt32 × Nat) → (Nat → Option Caller) → Prop where
  | quiet {a : CallersAct} : (∀ k, a ≠ .cancel k) → Move s a s.calls s.callers
  | enter {t : Nat} {proc : UInt32} {junk : Int} : s.callers t = none →
      Move s (.call t proc junk) ((s.xid, t) :: eraseXid s.calls s.xid)
        (Function.update s.callers t (some (.new s.xid proc junk)))
  | leave {t : Nat} {ca : Caller} : s.callers t = some ca → ca.phase = .looping →
      Move s (.leave t) s.calls (Function.update s.callers t (some { ca with phase := .leaving }))
  | erase {t : Nat} {ca : Caller} {woken : Option Nat} :
      s.callers t = some ca → ca.phase = .leaving →
      Move s (.erase t woken) (eraseXid s.calls ca.xid)
        (Function.update s.callers t (some { ca with phase := .erased }))
  | ret {t : Nat} {ca : Caller} : s.callers t = some ca → ca.phase = .erased →
      Move s (.ret t) s.calls
        (Function.update s.callers t (some { ca with phase := .returned ca.ret }))
  | reply {r : Reply} {t : Nat} {ca : Caller} : (r.xid, t) ∈ s.calls → s.callers t = some ca →
      Move s (.gotPdu r) s.calls (Function.update s.callers t (some (ca.gotPdu r)))
  | cancel {k : Nat} : Move s (.cancel k) s.calls s.cancelAll.callers

@[simp] theorem awaitEmpty_calls : (s.awaitEmpty k).calls = s.calls := by
  unfold awaitEmpty
  split <;> rfl

@[simp] theorem awaitEmpty_callers : (s.awaitEmpty k).callers = s.callers := by
  unfold awaitEmpty
  split <;> rfl

theorem modify_callers {f : Caller → Caller} (h : s.callers t = some ca) :
    (s.modify t f).callers = Function.update s.callers t (some (f ca)) := by
  unfold modify
  rw [h, Option.map_some]

theorem call_move {proc : UInt32} {junk : Int} (h : s.callers t = none) :
    Move s (.call t proc junk) (s.call t proc junk).calls (s.call t proc junk).callers := by
  unfold call
  split
  · exact .quiet fun _ hc => by cases hc
  · split
    · exact .quiet fun _ hc => by cases hc
    · exact .enter h

theorem gotPdu_move (r : Reply) : Move s (.gotPdu r) (s.gotPdu r).calls (s.gotPdu r).callers := by
  unfold gotPdu
  dsimp only
  split
  · exact .quiet fun _ hc => by cases hc
  · next t hl =>
      obtain ⟨l₁, l₂, hcalls, -⟩ := List.lookup_eq_some_iff.mp hl
      cases hc : s.callers t with
      | none =>
          have hsame : Function.update s.callers t none = s.callers := by
            rw [← hc, Function.update_eq_self]
          simp only [modify, hc, Option.map_none, hsame]
          exact .quiet fun _ hc => by cases hc
      | some ca =>
          simp only [modify, hc, Option.map_some]
          have hmem : (r.xid, t) ∈ s.calls := by rw [hcalls]; simp
          exact .reply hmem hc

theorem erase_move {woken : Option Nat} (h : s.callers t = some ca) (hp : ca.phase = .leaving)
    (hn : s.erase t ca woken = some s') : Move s (.erase t woken) s'.calls s'.callers := by
  unfold erase at hn
  dsimp only at hn
  split at hn
  · obtain ⟨c, -, rfl⟩ := Option.map_eq_some_iff.mp hn
    exact .erase h hp
  · split at hn
    · cases hn
      exact .erase h hp
    · cases hn

theorem step_move (hn : s.step a = some s') : Move s a s'.calls s'.callers := by
  cases a with
  | call t proc junk =>
      simp only [step] at hn
      split at hn
      · next h =>
          cases hn
          exact call_move h
      · cases hn
  | leave t =>
      simp only [step] at hn
      split at hn
      · next ca h =>
          split at hn
          · next hp =>
              cases hn
              rw [modify_callers h]
              exact .leave h hp
          · cases hn
      · cases hn
  | erase t woken =>
      simp only [step] at hn
      split at hn
      · next ca h =>
          split at hn
          · next hp => exact erase_move h hp hn
          · cases hn
      · cases hn
  | ret t =>
      simp only [step] at hn
      split at hn
      · next ca h =>
          split at hn
          · next hp =>
              cases hn
              rw [modify_callers h]
              exact .ret h hp
          · cases hn
      · cases hn
  | bound t =>
      simp only [step] at hn
      split at hn
      · split at hn
        · cases hn
          exact .quiet fun _ hc => by cases hc
        · cases hn
      · cases hn
  | gotPdu r =>
      cases hn
      exact gotPdu_move r
  | cancel k =>
      simp only [step] at hn
      split at hn
      · cases hn
      · cases hn
        rw [awaitEmpty_calls, awaitEmpty_callers]
        exact .cancel
  | wake k =>
      obtain ⟨c, -, rfl⟩ := Option.map_eq_some_iff.mp hn
      exact .quiet fun _ hc => by cases hc
  | resume k =>
      obtain ⟨c, -, rfl⟩ := Option.map_eq_some_iff.mp hn
      rw [awaitEmpty_calls, awaitEmpty_callers]
      exact .quiet fun _ hc => by cases hc

/-! ## The entries of `calls_` -/

/-- The entries of `calls_` are calls that have not left it. -/
def Entered (s : Callers) : Prop :=
  ∀ p ∈ s.calls, ∃ ca, s.callers p.2 = some ca ∧ ca.xid = p.1 ∧ ca.phase.InCalls

theorem mem_eraseXid {calls : List (UInt32 × Nat)} {x : UInt32} {p : UInt32 × Nat} :
    p ∈ eraseXid calls x ↔ p ∈ calls ∧ p.1 ≠ x := by
  simp [eraseXid]

/-- A call that keeps its xid and its place keeps its entry. -/
theorem Entered.update (h : s.Entered) (ca' : Caller) (ht : s.callers t = some ca)
    (hca : ca.phase.InCalls → ca'.xid = ca.xid ∧ ca'.phase.InCalls)
    {p : UInt32 × Nat} (hp : p ∈ s.calls) :
    ∃ c, Function.update s.callers t (some ca') p.2 = some c ∧ c.xid = p.1 ∧ c.phase.InCalls := by
  obtain ⟨c, hc, hx, hin⟩ := h p hp
  by_cases hpt : p.2 = t
  · rw [hpt] at hc ⊢
    cases ht.symm.trans hc
    obtain ⟨hx', hin'⟩ := hca hin
    exact ⟨ca', Function.update_self _ _ _, hx'.trans hx, hin'⟩
  · exact ⟨c, by rw [Function.update_of_ne hpt]; exact hc, hx, hin⟩

theorem entered_step (h : s.Entered) (hn : s.step a = some s') : s'.Entered := by
  unfold Entered
  have hm := step_move hn
  generalize s'.calls = calls at *
  generalize s'.callers = callers at *
  cases hm with
  | quiet _ => exact h
  | enter ht =>
      intro p hp
      rcases List.mem_cons.mp hp with rfl | hp
      · exact ⟨_, Function.update_self _ _ _, rfl, .inl rfl⟩
      · obtain ⟨ca, hca, hx, hin⟩ := h p (mem_eraseXid.mp hp).1
        refine ⟨ca, ?_, hx, hin⟩
        rw [Function.update_of_ne, hca]
        rintro he
        rw [he, ht] at hca
        cases hca
  | @leave t ca ht _ =>
      exact fun p hp => h.update { ca with phase := .leaving } ht (fun _ => ⟨rfl, .inr rfl⟩) hp
  | @erase t ca _ ht _ =>
      intro p hp
      obtain ⟨hp, hne⟩ := mem_eraseXid.mp hp
      obtain ⟨c, hc, hx, hin⟩ := h p hp
      refine ⟨c, ?_, hx, hin⟩
      rw [Function.update_of_ne, hc]
      rintro he
      rw [he, ht] at hc
      cases hc
      exact hne hx.symm
  | ret ht hp =>
      refine fun p hmem => h.update _ ht (fun hin => ?_) hmem
      rw [hp] at hin
      rcases hin with hin | hin <;> cases hin
  | reply _ ht =>
      refine fun p hmem => h.update _ ht (fun hin => ?_) hmem
      rw [Caller.gotPdu_xid, Caller.gotPdu_phase]
      exact ⟨rfl, hin⟩
  | cancel =>
      intro p hp
      obtain ⟨ca, hca, hx, hin⟩ := h p hp
      refine ⟨ca.cancel, ?_, hx, hin⟩
      simp only [cancelAll, if_pos (List.mem_map_of_mem hp), hca, Option.map_some]

theorem entered_of_reached {G : Callers → CallersAct → Prop} (h : callersMachine.ReachedVia G s) :
    s.Entered :=
  h.invariant (P := Entered) (fun _ hp => absurd hp List.not_mem_nil)
    fun _ _ _ he _ hn => entered_step he hn

/-! ## Once -/

/-- Every call's outcome is decided once. -/
def Decided (s : Callers) : Prop := ∀ t ca, s.callers t = some ca → ca.Decided

/-- A `cancel` finds no call that is done, unless `cancel_failure` is its result
already. -/
def NoLateCancel (s : Callers) : CallersAct → Prop
  | .cancel _ => ∀ p ∈ s.calls, ∀ ca ∈ s.callers p.2, ca.done = true →
      ca.intret = RpcConst.cancelFailure
  | _ => True

instance (s : Callers) : (a : CallersAct) → Decidable (s.NoLateCancel a)
  | .cancel _ => inferInstanceAs (Decidable (∀ p ∈ s.calls, ∀ ca ∈ s.callers p.2,
      ca.done = true → ca.intret = RpcConst.cancelFailure))
  | .call _ _ _ | .leave _ | .erase _ _ | .ret _ | .bound _ | .gotPdu _ | .wake _ | .resume _ =>
      inferInstanceAs (Decidable True)

theorem decided_update (h : s.Decided) {ca' : Caller} (hca : ca'.Decided) {u : Nat} {c : Caller}
    (hc : Function.update s.callers t (some ca') u = some c) : c.Decided := by
  by_cases hu : u = t
  · subst hu
    rw [Function.update_self] at hc
    cases hc
    exact hca
  · rw [Function.update_of_ne hu] at hc
    exact h u c hc

/-- `cancel` keeps the outcomes exactly when it comes late for none of the calls. -/
theorem decided_cancelAll_iff (he : s.Entered) (h : s.Decided) (k : Nat) :
    s.cancelAll.Decided ↔ s.NoLateCancel (.cancel k) := by
  constructor
  · intro hd p hp ca hca
    obtain ⟨ca', hca', -, hin⟩ := he p hp
    cases hca.symm.trans hca'
    refine ((h _ _ hca).cancel_iff hin).mp (hd p.2 ca.cancel ?_)
    have hca : s.callers p.2 = some ca := hca
    simp only [cancelAll, if_pos (List.mem_map_of_mem hp), hca, Option.map_some]
  · intro hg t c hc
    simp only [cancelAll] at hc
    split at hc
    · next ht =>
        obtain ⟨p, hp, rfl⟩ := List.mem_map.mp ht
        obtain ⟨ca, hca, rfl⟩ := Option.map_eq_some_iff.mp hc
        obtain ⟨ca', hca', -, hin⟩ := he p hp
        cases hca.symm.trans hca'
        exact ((h _ _ hca).cancel_iff hin).mpr (hg p hp ca hca)
    · exact h t c hc

/-- A step keeps the outcomes exactly if it is no late `cancel`. -/
theorem decided_step_iff (he : s.Entered) (h : s.Decided) (hn : s.step a = some s') :
    s'.Decided ↔ s.NoLateCancel a := by
  have hm := step_move hn
  unfold Decided
  generalize s'.calls = calls at hm
  generalize s'.callers = callers at *
  cases hm with
  | quiet hk =>
      refine ⟨fun _ => ?_, fun _ => h⟩
      cases a with
      | cancel k => exact absurd rfl (hk k)
      | call | leave | erase | ret | bound | gotPdu | wake | resume => trivial
  | enter _ => exact iff_of_true (fun _ _ => decided_update h (Caller.decided_new _ _ _)) trivial
  | leave ht _ =>
      refine iff_of_true (fun _ _ => decided_update h ((h _ _ ht).setPhase fun v hv => ?_)) trivial
      cases hv
  | erase ht _ =>
      refine iff_of_true (fun _ _ => decided_update h ((h _ _ ht).setPhase fun v hv => ?_)) trivial
      cases hv
  | ret ht _ =>
      refine iff_of_true (fun _ _ => decided_update h ((h _ _ ht).setPhase fun v hv => ?_)) trivial
      cases hv
      rfl
  | reply hmem ht =>
      obtain ⟨ca, hca, -, hin⟩ := he _ hmem
      cases ht.symm.trans hca
      exact iff_of_true (fun _ _ => decided_update h ((h _ _ ht).gotPdu hin)) trivial
  | @cancel k => exact decided_cancelAll_iff he h k

/-- As long as no `cancel` finds a call in `calls_` that is done with another
result, the outcome of every call is that of the event that completed it first, in
`intret`, in the reply taken in and in what `call1` returns.  A call whose reply
with result 0 was accepted is then not reported as `cancel_failure`.  The first
`cancel` that does find one changes an outcome. -/
theorem outcome_decided_once (h : callersMachine.ReachedVia NoLateCancel s) :
    s.Decided ∧
      (∀ t ca r, s.callers t = some ca → ca.first = some (.reply r) → r.ret = 0 →
        ca.phase ≠ .returned RpcConst.cancelFailure) ∧
      ∀ a s', callersMachine.next s a = some s' → (s'.Decided ↔ s.NoLateCancel a) := by
  have hd : s.Decided := by
    induction h with
    | init => exact fun _ _ hc => by cases hc
    | step hs hg hn ih => exact (decided_step_iff (entered_of_reached hs) ih hn).mpr hg
  refine ⟨hd, fun t ca r hca hf hr hp => ?_, fun a s' hn => ?_⟩
  · have hret := (hd t ca hca).ret _ hp
    rw [hf] at hret
    exact absurd (hret.trans hr) (by decide)
  · exact decided_step_iff (entered_of_reached h) hd hn

/-- Of two calls one has its reply and returns, the other one is cancelled, and its
reply comes after. -/
def timelyCancel : List CallersAct :=
  [.call 0 RpcConst.bind 5, .call 1 RpcConst.bind 5, .gotPdu ⟨1, 0, []⟩, .leave 0, .erase 0 none,
    .ret 0, .cancel 9, .gotPdu ⟨2, 0, []⟩, .leave 1, .erase 1 (some 9), .ret 1, .resume 9]

theorem outcome_decided_once_timelyCancel : ∃ s c₀ c₁,
    callersMachine.ReachedVia NoLateCancel s ∧ s.callers 0 = some c₀ ∧ c₀.phase = .returned 0 ∧
    s.callers 1 = some c₁ ∧ c₁.first = some .cancel ∧ c₁.Decided := by
  obtain ⟨s, hs, hp⟩ := @Machine.exists_reachedVia_of_run _ _ callersMachine NoLateCancel _
    (fun s => decide (((s.callers 0).map Caller.phase) = some (.returned 0) ∧
      (s.callers 1).bind Caller.first = some .cancel)) timelyCancel (by decide)
  obtain ⟨h₀, h₁⟩ := of_decide_eq_true hp
  obtain ⟨c₀, hc₀, hphase⟩ := Option.map_eq_some_iff.mp h₀
  obtain ⟨c₁, hc₁, hfirst⟩ := Option.bind_eq_some_iff.mp h₁
  exact ⟨s, c₀, c₁, hs, hc₀, hphase, hc₁, hfirst, (outcome_decided_once hs).1 1 c₁ hc₁⟩

/-- The reply has been accepted, and `cancel` comes before the thread in `call1`. -/
def lateCancel : List CallersAct :=
  [.call 0 RpcConst.bind 5, .gotPdu ⟨1, 0, []⟩, .cancel 9, .leave 0, .erase 0 (some 9), .ret 0]

/-- The call returns `cancel_failure` although its reply, with result 0, completed
it. -/
theorem outcome_decided_twice : ¬ ∀ s, callersMachine.Reachable s → s.Decided := by
  intro hall
  obtain ⟨s, hs, hp⟩ := @Machine.exists_reachable_of_run _ _ callersMachine
    (fun s => decide ((s.callers 0).map Caller.phase = some (.returned RpcConst.cancelFailure) ∧
      (s.callers 0).bind Caller.first = some (.reply ⟨1, 0, []⟩))) lateCancel (by decide)
  obtain ⟨hphase, hfirst⟩ := of_decide_eq_true hp
  obtain ⟨ca, hca, hphase⟩ := Option.map_eq_some_iff.mp hphase
  rw [hca] at hfirst
  have hret := (hall s hs 0 ca hca).ret _ hphase
  rw [show ca.first = _ from hfirst] at hret
  exact absurd hret (by decide)

end Callers

end RpcLock.Rpcc
