import RpcLock.Rpcc.Channel

/-!
# The references to a client's connections

A connection is held by `chan_` and by the calls whose `ch` points to it, and
`refno_` is the number of these.  The reference of `chan_` is given up only after
the connection was found dead, or closed by the destructor, so that a count of
zero is the count of a dead connection, which is deleted at once.
-/

namespace RpcLock.Rpcc

namespace Channel

/-- The calls whose `ch` points to `c`. -/
def holding (s : Channel) (c : ConnId) : Nat :=
  tableCount s.calls s.running fun call => call.ch = some c

/-- All references to `c`. -/
def held (s : Channel) (c : ConnId) : Nat := (if s.chan = some c then 1 else 0) + s.holding c

variable {s s' : Channel} {t u : Nat} {c d : ConnId} {call call' : ChannelCall} {a : ChannelAct}
  {o : Option ConnId}

/-! ## The counts -/

/-- The counts are exact, and zero for the connections that were deleted only. -/
structure Counts (s : Channel) : Prop where
  refs : ∀ c, s.refno c = s.held c
  made : ∀ c, s.made c = false → s.held c = 0
  deleted : ∀ c, s.deleted c = true ↔ s.made c = true ∧ s.refno c = 0
  /-- `chan_` is the only connection that is not known to be dead. -/
  dead : ∀ c, s.made c = true → s.chan ≠ some c → s.dead c = true
  fault : s.fault = false

/-- The connections are the same. -/
structure SameConnections (s s' : Channel) : Prop where
  made : s'.made = s.made
  refno : s'.refno = s.refno
  dead : s'.dead = s.dead
  deleted : s'.deleted = s.deleted
  fault : s'.fault = s.fault

/-- A connection that is held can be accessed. -/
theorem Counts.live (h : s.Counts) (hpos : 0 < s.held c) : s.Live c := by
  constructor
  · by_contra hm
    rw [h.made c (Bool.not_eq_true _ ▸ hm)] at hpos
    exact absurd hpos (Nat.lt_irrefl 0)
  · by_contra hd
    have hz := ((h.deleted c).mp (Bool.not_eq_false _ ▸ hd)).2
    rw [h.refs c] at hz
    omega

/-- A step that moves no pointer and makes no access. -/
theorem Counts.quiet (h : s.Counts) (hs : s.SameConnections s') (hchan : s'.chan = s.chan)
    (hheld : ∀ c, s'.held c = s.held c) : s'.Counts where
  refs c := by rw [hs.refno, hheld, h.refs]
  made c hc := by rw [hheld, h.made c (hs.made ▸ hc)]
  deleted c := by rw [hs.deleted, hs.made, hs.refno, h.deleted]
  dead c hc hne := by
    rw [hs.dead]
    exact h.dead c (hs.made ▸ hc) (hchan ▸ hne)
  fault := hs.fault.trans h.fault

/-- An operation on a connection leaves those that were not made unheld. -/
theorem Counts.held_of_made_eq_false (h : s.Counts) (hs : s.SameConnections s')
    {op : RefOp ConnId} (hb : RefOp.Backed s.held s'.held [op]) (hop : s'.made op.target = true)
    (hd : s'.made d = false) : s'.held d = 0 := by
  have hne : op.target ≠ d := by
    rintro rfl
    exact absurd hop (by rw [hd]; decide)
  rw [hb.untouched fun op' h' => by rwa [List.mem_singleton.mp h']]
  exact h.made d (hs.made ▸ hd)

/-- A reference is taken to a connection that is held. -/
theorem Counts.incref (h : s.Counts) (hs : s.SameConnections s') (hchan : s'.chan = s.chan)
    (hb : RefOp.Backed s.held s'.held [.incref c]) (hpos : 0 < s.held c) :
    (s'.incref c).Counts := by
  have hlive := h.live hpos
  have hlive' : s'.Live c := ⟨hs.made ▸ hlive.1, hs.deleted ▸ hlive.2⟩
  obtain ⟨r, hr, hrefs⟩ := hb.applyAll h.refs
  rw [RefOp.applyAll_incref, Option.some.injEq] at hr
  have hmade (d : ConnId) (hd : s'.made d = false) : s'.held d = 0 :=
    h.held_of_made_eq_false hs hb hlive'.1 hd
  unfold Channel.incref
  rw [if_pos hlive', hs.refno, hr]
  refine ⟨hrefs, hmade, fun d => ?_, fun d hd hne => ?_, hs.fault.trans h.fault⟩
  · show s'.deleted d = true ↔ s'.made d = true ∧ r d = 0
    rw [hs.deleted, hs.made, h.deleted d, ← hr]
    by_cases hdc : d = c
    · subst hdc
      rw [Function.update_self, h.refs d]
      omega
    · rw [Function.update_of_ne hdc]
  · show s'.dead d = true
    rw [hs.dead]
    exact h.dead d (hs.made ▸ hd) (hchan ▸ hne)

/-- A reference is given back.  A connection that `chan_` does not point to any
more is dead, so that it is deleted with its last reference. -/
theorem Counts.decref (h : s.Counts) (hs : s.SameConnections s')
    (hb : RefOp.Backed s.held s'.held [.decref c])
    (hdead : ∀ d, s.made d = true → s'.chan ≠ some d → s.dead d = true) :
    (s'.decref c).Counts := by
  obtain ⟨r, hr, hrefs⟩ := hb.applyAll h.refs
  obtain ⟨hne, hr⟩ := RefOp.applyAll_decref_inv hr
  have hlive := h.live (c := c) (by rw [← h.refs c]; exact Nat.pos_of_ne_zero hne)
  have hlive' : s'.Live c := ⟨hs.made ▸ hlive.1, hs.deleted ▸ hlive.2⟩
  have hmade (d : ConnId) (hd : s'.made d = false) : s'.held d = 0 :=
    h.held_of_made_eq_false hs hb hlive'.1 hd
  have hdead' (d : ConnId) (hd : s'.made d = true) (hc : s'.chan ≠ some d) : s'.dead d = true := by
    rw [hs.dead]
    exact hdead d (hs.made ▸ hd) hc
  unfold Channel.decref
  rw [if_pos ⟨hlive', by rw [hs.refno]; exact hne⟩, hs.refno, ← hr]
  dsimp only
  split
  · next hzero =>
      refine ⟨hrefs, hmade, fun d => ?_, hdead', hs.fault.trans h.fault⟩
      show Function.update s'.deleted c true d = true ↔ s'.made d = true ∧ r d = 0
      by_cases hdc : d = c
      · subst hdc
        rw [Function.update_self]
        exact iff_of_true rfl ⟨hlive'.1, hzero.1⟩
      · rw [Function.update_of_ne hdc, hs.deleted, hs.made, h.deleted d, hr,
          Function.update_of_ne hdc]
  · next hzero =>
      refine ⟨hrefs, hmade, fun d => ?_, hdead', hs.fault.trans h.fault⟩
      show s'.deleted d = true ↔ s'.made d = true ∧ r d = 0
      by_cases hdc : d = c
      · subst hdc
        refine iff_of_false (by rw [hlive'.2]; decide) fun ⟨_, hz⟩ => hzero ⟨hz, ?_⟩
        -- the last reference was not the one of `chan_`
        refine hdead' d hlive'.1 fun hc => ?_
        rw [hrefs d, held, if_pos hc] at hz
        omega
      · rw [hs.deleted, hs.made, h.deleted d, hr, Function.update_of_ne hdc]

/-! ## The threads -/

/-- Who has `chan_m_`, and what that thread knows of `chan_`. -/
structure Control (s : Channel) : Prop where
  nodup : s.running.Nodup
  mem_running : ∀ t, t ∈ s.running ↔ (s.calls t).isSome
  inside : ∀ t call, s.calls t = some call → call.phase ≠ .outside → s.chanM = some t
  locked : ∀ t, s.chanM = some t → ∃ call, s.calls t = some call ∧ call.phase ≠ .outside
  giveUp : ∀ t call, s.calls t = some call → call.phase = .giveUp →
    ∀ c, s.chan = some c → s.dead c = true
  connecting : ∀ t call, s.calls t = some call → call.phase = .connecting → s.chan = none
  idle : s.destructor ≠ .alive → s.running = []
  closed : s.destructor = .closed → ∀ c, s.chan = some c → s.dead c = true
  destroyed : s.destructor = .destroyed → s.chan = none

theorem Control.mem (h : s.Control) (ht : s.calls t = some call) : t ∈ s.running :=
  (h.mem_running t).mpr (by rw [ht]; rfl)

theorem Control.alive (h : s.Control) (ht : s.calls t = some call) : s.destructor = .alive := by
  by_contra hd
  have hmem := h.mem ht
  rw [h.idle hd] at hmem
  cases hmem

theorem Control.incref (h : s.Control) : (s.incref c).Control := by
  unfold Channel.incref
  split <;> exact ⟨h.1, h.2, h.3, h.4, h.5, h.6, h.7, h.8, h.9⟩

theorem Control.decref (h : s.Control) : (s.decref c).Control := by
  unfold Channel.decref
  dsimp only
  split
  · split <;> exact ⟨h.1, h.2, h.3, h.4, h.5, h.6, h.7, h.8, h.9⟩
  · exact ⟨h.1, h.2, h.3, h.4, h.5, h.6, h.7, h.8, h.9⟩

/-- A thread goes on, in `get_refconn` or out of it, while no other one is in it. -/
theorem Control.move (h : s.Control) (ht : s.calls t = some call)
    (hcalls : s'.calls = Function.update s.calls t (some call'))
    (hrunning : s'.running = s.running) (hdestructor : s'.destructor = s.destructor)
    (hfree : s.chanM = none ∨ s.chanM = some t)
    (hlock : s'.chanM = if call'.phase = .outside then none else some t)
    (hgiveUp : call'.phase = .giveUp → ∀ c, s'.chan = some c → s'.dead c = true)
    (hconnecting : call'.phase = .connecting → s'.chan = none) : s'.Control := by
  have hothers (u : Nat) (call : ChannelCall) (hut : u ≠ t) (hu : s.calls u = some call) :
      call.phase = .outside := by
    by_contra hp
    have hm := h.inside u call hu hp
    rcases hfree with hf | hf <;> rw [hf] at hm <;> cases hm
    exact hut rfl
  have hcases (u : Nat) (c₁ : ChannelCall) (hu : s'.calls u = some c₁) :
      (u = t ∧ c₁ = call') ∨ c₁.phase = .outside := by
    rw [hcalls] at hu
    by_cases hut : u = t
    · subst hut
      rw [Function.update_self, Option.some.injEq] at hu
      exact .inl ⟨rfl, hu.symm⟩
    · rw [Function.update_of_ne hut] at hu
      exact .inr (hothers u c₁ hut hu)
  have halive := h.alive ht
  constructor
  · rw [hrunning]
    exact h.nodup
  · intro u
    rw [hrunning, hcalls, h.mem_running]
    by_cases hut : u = t
    · subst hut
      rw [Function.update_self, ht]
      rfl
    · rw [Function.update_of_ne hut]
  · intro u c₁ hu hp
    rcases hcases u c₁ hu with ⟨rfl, rfl⟩ | hout
    · rw [hlock, if_neg hp]
    · exact absurd hout hp
  · intro u hu
    rw [hlock] at hu
    split at hu
    · cases hu
    · next hp =>
        cases hu
        exact ⟨call', by rw [hcalls, Function.update_self], hp⟩
  · intro u c₁ hu hp
    rcases hcases u c₁ hu with ⟨rfl, rfl⟩ | hout
    · exact hgiveUp hp
    · rw [hout] at hp
      cases hp
  · intro u c₁ hu hp
    rcases hcases u c₁ hu with ⟨rfl, rfl⟩ | hout
    · exact hconnecting hp
    · rw [hout] at hp
      cases hp
  · exact fun hd => absurd (hdestructor.trans halive) hd
  · exact fun hd => by rw [hdestructor, halive] at hd; cases hd
  · exact fun hd => by rw [hdestructor, halive] at hd; cases hd

/-- A thread outside `get_refconn` comes or goes. -/
theorem Control.register (h : s.Control) {o : Option ChannelCall}
    (hout : ∀ call, s.calls t = some call → call.phase = .outside)
    (hcalls : s'.calls = Function.update s.calls t o)
    (ho : ∀ call, o = some call → call.phase = .outside)
    (hsame : s'.chan = s.chan ∧ s'.chanM = s.chanM ∧ s'.dead = s.dead ∧
      s'.destructor = s.destructor)
    (hnodup : s'.running.Nodup) (hmem : ∀ u, u ∈ s'.running ↔ (s'.calls u).isSome)
    (halive : s.destructor = .alive) : s'.Control := by
  obtain ⟨hchan, hchanM, hdead, hdestructor⟩ := hsame
  have hold (u : Nat) (call : ChannelCall) (hu : s'.calls u = some call)
      (hp : call.phase ≠ .outside) : s.calls u = some call := by
    rw [hcalls] at hu
    by_cases hut : u = t
    · subst hut
      rw [Function.update_self] at hu
      exact absurd (ho call hu) hp
    · rwa [Function.update_of_ne hut] at hu
  refine ⟨hnodup, hmem, fun u call hu hp => ?_, fun u hu => ?_, fun u call hu hp => ?_,
    fun u call hu hp => ?_, fun hd => ?_, fun hd => ?_, fun hd => ?_⟩
  · rw [hchanM]
    exact h.inside u call (hold u call hu hp) hp
  · obtain ⟨call, hcall, hp⟩ := h.locked u (hchanM ▸ hu)
    refine ⟨call, ?_, hp⟩
    rw [hcalls, Function.update_of_ne, hcall]
    rintro rfl
    exact hp (hout call hcall)
  · rw [hchan, hdead]
    exact h.giveUp u call (hold u call hu (by rw [hp]; decide)) hp
  · rw [hchan]
    exact h.connecting u call (hold u call hu (by rw [hp]; decide)) hp
  · exact absurd (hdestructor.trans halive) hd
  · exact absurd (hd.symm.trans (hdestructor.trans halive)) (by decide)
  · exact absurd (hd.symm.trans (hdestructor.trans halive)) (by decide)

/-! ## What a step does to the references -/

/-- A call changes its `ch`. -/
theorem holding_update (h : s.Control) (ht : s.calls t = some call)
    (hcalls : s'.calls = Function.update s.calls t (some call'))
    (hrunning : s'.running = s.running) (c : ConnId) :
    s'.holding c + (if call.ch = some c then 1 else 0) =
      s.holding c + if call'.ch = some c then 1 else 0 := by
  have hc := tableCount_update h.nodup (h.mem ht) ht call' fun call => decide (call.ch = some c)
  unfold holding
  rw [hcalls, hrunning]
  simp only [decide_eq_true_eq] at hc
  exact hc

/-- `chan_` gives up its reference and the call keeps its own. -/
theorem backed_giveUp (h : s.Control) (ht : s.calls t = some call)
    (hcalls : s'.calls = Function.update s.calls t (some call'))
    (hrunning : s'.running = s.running) (hch : call'.ch = call.ch) (hc : s.chan = some c)
    (hchan : s'.chan = none) : RefOp.Backed s.held s'.held [.decref c] := by
  refine .decref fun d => ?_
  have hu := holding_update h ht hcalls hrunning d
  rw [hch] at hu
  unfold held
  simp only [hc, hchan, Option.some.injEq, reduceCtorEq, if_false]
  omega

/-- The call gives up its reference. -/
theorem backed_release (h : s.Control) (ht : s.calls t = some call)
    (hcalls : s'.calls = Function.update s.calls t (some call'))
    (hrunning : s'.running = s.running) (hc : call.ch = some c) (hch : call'.ch = none)
    (hchan : s'.chan = s.chan) : RefOp.Backed s.held s'.held [.decref c] := by
  refine .decref fun d => ?_
  have hu := holding_update h ht hcalls hrunning d
  simp only [hc, hch, Option.some.injEq, reduceCtorEq, if_false] at hu
  unfold held
  rw [hchan]
  omega

/-- The call takes a reference. -/
theorem backed_take (h : s.Control) (ht : s.calls t = some call)
    (hcalls : s'.calls = Function.update s.calls t (some call'))
    (hrunning : s'.running = s.running) (hc : call.ch = none) (hch : call'.ch = some c)
    (hchan : s'.chan = s.chan) : RefOp.Backed s.held s'.held [.incref c] := by
  refine .incref fun d => ?_
  have hu := holding_update h ht hcalls hrunning d
  simp only [hc, hch, Option.some.injEq, reduceCtorEq, if_false] at hu
  unfold held
  rw [hchan]
  omega

/-! ## The steps -/

structure Inv (s : Channel) : Prop where
  counts : s.Counts
  control : s.Control

theorem inv_init : init.Inv where
  counts := {
    refs := fun _ => rfl
    made := fun _ _ => rfl
    deleted := fun _ => iff_of_false (fun h => by cases h) fun h => by cases h.1
    dead := fun _ h => by cases h
    fault := rfl }
  control := {
    nodup := .nil
    mem_running := fun t => by simp [init]
    inside := fun _ _ h => by cases h
    locked := fun _ h => by cases h
    giveUp := fun _ _ h => by cases h
    connecting := fun _ _ h => by cases h
    idle := fun _ => rfl
    closed := fun h => by cases h
    destroyed := fun h => by cases h }

/-- What `chan_` points to is held. -/
theorem held_chan_pos (hc : s.chan = some c) : 0 < s.held c := by
  unfold held
  rw [if_pos hc]
  omega

theorem held_ch_pos (h : s.Control) (ht : s.calls t = some call) (hc : call.ch = some c) :
    0 < s.held c := by
  have hpos : 0 < s.holding c := tableCount_pos (h.mem ht) ht (decide_eq_true hc)
  exact Nat.lt_of_lt_of_le hpos (Nat.le_add_left _ _)

/-- A thread is in `get_refconn` alone. -/
theorem Control.free (h : s.Control) (ht : s.calls t = some call) (hp : call.phase ≠ .outside) :
    s.chanM = none ∨ s.chanM = some t := .inr (h.inside t call ht hp)

theorem inv_enter (h : s.Inv) (ha : s.destructor = .alive) (ht : s.calls t = none) :
    (s.enter t).Inv := by
  have hmem : t ∉ s.running := by
    rw [h.control.mem_running t, ht]
    decide
  refine ⟨h.counts.quiet ⟨rfl, rfl, rfl, rfl, rfl⟩ rfl fun d => ?_, ?_⟩
  · have hcons := tableCount_cons (f := s.calls) hmem (⟨none, .outside⟩ : ChannelCall)
      fun call => decide (call.ch = some d)
    exact congrArg (_ + ·) (hcons.trans (by simp [holding]))
  · refine h.control.register (fun call hc => ?_) rfl (fun call hc => ?_) ⟨rfl, rfl, rfl, rfl⟩
      (List.nodup_cons.mpr ⟨hmem, h.control.nodup⟩) (fun u => ?_) ha
    · rw [ht] at hc
      cases hc
    · cases hc
      rfl
    · show u ∈ t :: s.running ↔ (Function.update s.calls t (some ⟨none, .outside⟩) u).isSome
      by_cases hut : u = t
      · subst hut
        simp
      · rw [Function.update_of_ne hut, List.mem_cons, ← h.control.mem_running u]
        simp [hut]

/-- A thread goes on without an access to a connection. -/
theorem Inv.setPhase (h : s.Inv) (ht : s.calls t = some call) (p : RefconnPhase) (m : Option Nat)
    (hfree : s.chanM = none ∨ s.chanM = some t) (hlock : m = if p = .outside then none else some t)
    (hgiveUp : p = .giveUp → ∀ c, s.chan = some c → s.dead c = true)
    (hconnecting : p = .connecting → s.chan = none) :
    ({ s with chanM := m }.setCall t { call with phase := p }).Inv := by
  refine ⟨h.counts.quiet ⟨rfl, rfl, rfl, rfl, rfl⟩ rfl fun d => ?_, ?_⟩
  · have hu := @holding_update s ({ s with chanM := m }.setCall t { call with phase := p }) t call
      _ h.control ht rfl rfl d
    exact congrArg (_ + ·) (Nat.add_right_cancel hu)
  · exact h.control.move ht rfl rfl rfl hfree hlock hgiveUp hconnecting

theorem inv_test (h : s.Inv) (ht : s.calls t = some call) (hm : s.chanM = none) :
    (s.test t call).Inv := by
  unfold test
  dsimp only
  split
  · next hc =>
      exact h.setPhase ht .connecting (some t) (.inl hm) rfl (fun hg => by cases hg) fun _ => hc
  · next c hc =>
      rw [if_pos (h.counts.live (held_chan_pos hc))]
      split
      · next hd =>
          refine h.setPhase ht .giveUp (some t) (.inl hm) rfl (fun _ d hdc => ?_)
            fun hg => by cases hg
          cases hc.symm.trans hdc
          exact hd
      · exact h.setPhase ht .handOver (some t) (.inl hm) rfl (fun hg => by cases hg)
          fun hg => by cases hg

theorem inv_giveUp (h : s.Inv) (ht : s.calls t = some call) (hp : call.phase = .giveUp)
    (hc : s.chan = some c) : (s.giveUp t call c).Inv := by
  have hdead : s.dead c = true := h.control.giveUp t call ht hp c hc
  unfold giveUp
  refine ⟨h.counts.decref ⟨rfl, rfl, rfl, rfl, rfl⟩ ?_ fun d hd _ => ?_, Control.decref ?_⟩
  · exact backed_giveUp h.control ht rfl rfl rfl hc rfl
  · by_cases hdc : s.chan = some d
    · cases hc.symm.trans hdc
      exact hdead
    · exact h.counts.dead d hd hdc
  · exact h.control.move ht rfl rfl rfl (h.control.free ht (by rw [hp]; decide))
      (h.control.inside t call ht (by rw [hp]; decide)) (fun hg => by cases hg) fun _ => rfl

/-- A new connection is the one of `chan_` only. -/
theorem counts_newConnection (h : s.Counts) (hc : s.chan = none) (hfresh : s.made c = false)
    (hchan : s'.chan = some c) (hmade : s'.made = Function.update s.made c true)
    (hrefno : s'.refno = Function.update s.refno c 1)
    (hdead : s'.dead = Function.update s.dead c false) (hdeleted : s'.deleted = s.deleted)
    (hfault : s'.fault = s.fault) (hholding : ∀ d, s'.holding d = s.holding d) : s'.Counts := by
  have hheld (d : ConnId) : s'.held d = s.held d + if c = d then 1 else 0 := by
    unfold held
    simp only [hchan, hc, hholding, Option.some.injEq, reduceCtorEq, if_false]
    omega
  have hzero := h.made c hfresh
  refine ⟨fun d => ?_, fun d hd => ?_, fun d => ?_, fun d hd hne => ?_, hfault.trans h.fault⟩
  · rw [hheld, hrefno]
    by_cases hdc : d = c
    · subst hdc
      rw [Function.update_self, hzero, if_pos rfl]
    · rw [Function.update_of_ne hdc, if_neg (Ne.symm hdc), h.refs d, Nat.add_zero]
  · have hdc : d ≠ c := by
      rintro rfl
      rw [hmade, Function.update_self] at hd
      cases hd
    rw [hmade, Function.update_of_ne hdc] at hd
    rw [hheld, if_neg (Ne.symm hdc), h.made d hd]
  · rw [hdeleted, hmade, hrefno]
    by_cases hdc : d = c
    · subst hdc
      rw [Function.update_self, Function.update_self, h.deleted d, hfresh]
      exact iff_of_false (fun hx => by cases hx.1) fun hx => absurd hx.2 Nat.one_ne_zero
    · rw [Function.update_of_ne hdc, Function.update_of_ne hdc, h.deleted d]
  · have hdc : d ≠ c := fun he => hne (by rw [hchan, he])
    rw [hmade, Function.update_of_ne hdc] at hd
    rw [hdead, Function.update_of_ne hdc]
    exact h.dead d hd (by rw [hc]; exact fun hx => by cases hx)

theorem inv_connect (h : s.Inv) (ht : s.calls t = some call) (hp : call.phase = .connecting)
    (hfresh : ∀ c ∈ o, s.made c = false) : (s.connect t call o).Inv := by
  have hc : s.chan = none := h.control.connecting t call ht hp
  have hout : call.phase ≠ .outside := by
    rw [hp]
    decide
  cases o with
  | none =>
      exact h.setPhase ht .handOver s.chanM (h.control.free ht hout)
        (h.control.inside t call ht hout) (fun hg => by cases hg) fun hg => by cases hg
  | some c =>
      constructor
      · refine counts_newConnection h.counts hc (hfresh c rfl) rfl rfl rfl rfl rfl rfl fun d => ?_
        exact Nat.add_right_cancel (@holding_update s (s.connect t call (some c)) t call
          { call with phase := .handOver } h.control ht rfl rfl d)
      · exact h.control.move ht rfl rfl rfl (h.control.free ht hout)
          (h.control.inside t call ht hout) (fun hg => by cases hg) fun hg => by cases hg

theorem inv_release (h : s.Inv) (ht : s.calls t = some ⟨some c, .handOver⟩) :
    (s.release t ⟨some c, .handOver⟩ c).Inv := by
  unfold release
  have hout : RefconnPhase.handOver ≠ .outside := by decide
  refine ⟨h.counts.decref ⟨rfl, rfl, rfl, rfl, rfl⟩ ?_ h.counts.dead, Control.decref ?_⟩
  · exact backed_release h.control ht rfl rfl rfl rfl rfl
  · exact h.control.move ht rfl rfl rfl (h.control.free ht hout) (h.control.inside t _ ht hout)
      (fun hg => by cases hg) fun hg => by cases hg

theorem inv_take (h : s.Inv) (ht : s.calls t = some ⟨none, .handOver⟩) (hc : s.chan = some c) :
    (s.take t c).Inv := by
  unfold take
  refine ⟨h.counts.incref ⟨rfl, rfl, rfl, rfl, rfl⟩ rfl ?_ (held_chan_pos hc), Control.incref ?_⟩
  · exact backed_take h.control ht rfl rfl rfl rfl rfl
  · exact h.control.move ht rfl rfl rfl (h.control.free ht (by decide)) rfl
      (fun hg => by cases hg) fun hg => by cases hg

theorem inv_leave (h : s.Inv) (ht : s.calls t = some call) (hp : call.phase = .handOver) :
    (s.leave t call).Inv :=
  h.setPhase ht .outside none (h.control.free ht (by rw [hp]; decide)) rfl (fun hg => by cases hg)
    fun hg => by cases hg

/-- The call is gone, and its reference is still to be given back. -/
theorem holding_finish (h : s.Control) (ht : s.calls t = some call) (c : ConnId) :
    ({ s with
      calls := Function.update s.calls t none
      running := s.running.erase t } : Channel).holding c +
        (if call.ch = some c then 1 else 0) = s.holding c := by
  have hc := tableCount_erase h.nodup (h.mem ht) ht none fun call => decide (call.ch = some c)
  simp only [decide_eq_true_eq] at hc
  exact hc

theorem inv_finish (h : s.Inv) (ht : s.calls t = some call) (hp : call.phase = .outside) :
    (s.finish t call).Inv := by
  have hcontrol : Control { s with
      calls := Function.update s.calls t none
      running := s.running.erase t } := by
    refine h.control.register (fun call' hc => ?_) rfl (fun _ hc => by cases hc)
      ⟨rfl, rfl, rfl, rfl⟩ (h.control.nodup.erase t) (fun u => ?_) (h.control.alive ht)
    · rw [ht] at hc
      cases hc
      exact hp
    · show u ∈ s.running.erase t ↔ (Function.update s.calls t none u).isSome
      rw [h.control.nodup.mem_erase_iff, h.control.mem_running u]
      by_cases hut : u = t
      · subst hut
        simp
      · simp [hut]
  unfold finish
  dsimp only
  split
  · next hch =>
      refine ⟨h.counts.quiet ⟨rfl, rfl, rfl, rfl, rfl⟩ rfl fun d => ?_, hcontrol⟩
      have hd := holding_finish h.control ht d
      rw [hch, if_neg (by simp)] at hd
      exact congrArg (_ + ·) hd
  · next c hch =>
      refine ⟨h.counts.decref ⟨rfl, rfl, rfl, rfl, rfl⟩ (.decref fun d => ?_) h.counts.dead,
        hcontrol.decref⟩
      have hd := holding_finish h.control ht d
      simp only [hch, Option.some.injEq] at hd
      unfold held
      dsimp only
      omega

theorem dead_update {d : ConnId} (hd : s.dead d = true) (c : ConnId) :
    Function.update s.dead c true d = true := by
  by_cases hdc : d = c
  · subst hdc
    exact Function.update_self _ _ _
  · rw [Function.update_of_ne hdc]
    exact hd

theorem counts_kill (h : s.Counts) (c : ConnId) :
    ({ s with dead := Function.update s.dead c true } : Channel).Counts :=
  ⟨h.refs, h.made, h.deleted, fun d hd hne => dead_update (h.dead d hd hne) c, h.fault⟩

theorem control_kill (h : s.Control) (c : ConnId) :
    ({ s with dead := Function.update s.dead c true } : Channel).Control :=
  ⟨h.nodup, h.mem_running, h.inside, h.locked,
    fun t call ht hp d hd => dead_update (h.giveUp t call ht hp d hd) c, h.connecting, h.idle,
    fun hc d hd => dead_update (h.closed hc d hd) c, h.destroyed⟩

theorem inv_close (h : s.Inv) (hr : s.running = []) : s.close.Inv := by
  unfold close
  split
  · next hc =>
      obtain ⟨h₁, h₂, h₃, h₄, h₅, h₆, -, -, -⟩ := h.control
      exact ⟨⟨h.counts.1, h.counts.2, h.counts.3, h.counts.4, h.counts.5⟩,
        ⟨h₁, h₂, h₃, h₄, h₅, h₆, fun _ => hr, fun hd => (by cases hd), fun _ => hc⟩⟩
  · next c hc =>
      rw [if_pos (h.counts.live (held_chan_pos hc))]
      obtain ⟨h₁, h₂, h₃, h₄, h₅, h₆, -, -, -⟩ := control_kill h.control c
      have hk := counts_kill h.counts c
      refine ⟨⟨hk.1, hk.2, hk.3, hk.4, hk.5⟩, ⟨h₁, h₂, h₃, h₄, h₅, h₆, fun _ => hr, ?_, ?_⟩⟩
      · intro _ d hd
        cases hc.symm.trans hd
        exact Function.update_self _ _ _
      · exact fun hd => by cases hd

theorem inv_destroy (h : s.Inv) (hc : s.chan = some c) (hd : s.destructor = .closed) :
    (s.destroy c).Inv := by
  have hdead : s.dead c = true := h.control.closed hd c hc
  have hr : s.running = [] := h.control.idle (by rw [hd]; decide)
  unfold destroy
  refine ⟨h.counts.decref ⟨rfl, rfl, rfl, rfl, rfl⟩ (.decref fun d => ?_) fun d hm _ => ?_,
    Control.decref ?_⟩
  · show (if (none : Option ConnId) = some d then 1 else 0) + s.holding d + _ = s.held d
    unfold held
    simp only [hc, Option.some.injEq, reduceCtorEq, if_false]
    omega
  · by_cases hdc : s.chan = some d
    · cases hc.symm.trans hdc
      exact hdead
    · exact h.counts.dead d hm hdc
  · exact ⟨h.control.nodup, h.control.mem_running, h.control.inside, h.control.locked,
      fun _ _ _ _ _ hx => (by cases hx), fun _ _ _ _ => rfl, fun _ => hr,
      fun hx => (by cases hx), fun _ => rfl⟩

theorem inv_next (h : s.Inv) (hn : s.next a = some s') : s'.Inv := by
  unfold next at hn
  rw [h.counts.fault, if_neg (by decide)] at hn
  cases a with
  | call t =>
      simp only [step] at hn
      split at hn
      · next hg =>
          cases hn
          exact inv_enter h hg.1 hg.2
      · cases hn
  | test t =>
      simp only [step] at hn
      split at hn
      · next call ht =>
          split at hn
          · next hg =>
              cases hn
              exact inv_test h ht hg.2
          · cases hn
      · cases hn
  | giveUp t =>
      simp only [step] at hn
      split at hn
      · next call c ht hc =>
          split at hn
          · next hp =>
              cases hn
              exact inv_giveUp h ht hp hc
          · cases hn
      · cases hn
  | connect t o =>
      simp only [step] at hn
      split at hn
      · next call ht =>
          split at hn
          · next hg =>
              cases hn
              exact inv_connect h ht hg.1 hg.2
          · cases hn
      · cases hn
  | release t =>
      simp only [step] at hn
      split at hn
      · next c ht =>
          split at hn
          · cases hn
          · cases hn
            exact inv_release h ht
      · cases hn
  | take t =>
      simp only [step] at hn
      split at hn
      · next c ht hc =>
          cases hn
          exact inv_take h ht hc
      · cases hn
  | leave t =>
      simp only [step] at hn
      split at hn
      · next call ht =>
          split at hn
          · next hg =>
              cases hn
              exact inv_leave h ht hg.1
          · cases hn
      · cases hn
  | use t =>
      simp only [step] at hn
      split at hn
      · next c ht =>
          cases hn
          rw [if_pos (h.counts.live (held_ch_pos h.control ht rfl))]
          exact h
      · cases hn
  | finish t =>
      simp only [step] at hn
      split at hn
      · next call ht =>
          split at hn
          · next hp =>
              cases hn
              exact inv_finish h ht hp
          · cases hn
      · cases hn
  | die c =>
      simp only [step] at hn
      split at hn
      · cases hn
        exact ⟨counts_kill h.counts c, control_kill h.control c⟩
      · cases hn
  | close =>
      simp only [step] at hn
      split at hn
      · next hg =>
          cases hn
          exact inv_close h hg.2
      · cases hn
  | destroy =>
      simp only [step] at hn
      split at hn
      · next c hc =>
          split at hn
          · next hd =>
              cases hn
              exact inv_destroy h hc hd
          · cases hn
      · cases hn

theorem inv_of_reachable (h : channelMachine.Reachable s) : s.Inv :=
  h.invariant (P := Inv) inv_init fun _ _ _ hi hn => inv_next hi hn

/-! ## What the counts mean -/

/-- In every reachable state the count of a connection is one for `chan_`, if it
points to it, and one for each call whose `ch` does.  A connection is deleted
exactly when its count is zero; it is then dead, and nothing points to it.  No
`VERIFY` of `decref` fails and no connection is used after it was deleted.  The
destructor leaves none behind. -/
theorem channel_references_exact (h : channelMachine.Reachable s) :
    s.fault = false ∧
      (∀ c, s.made c = true → s.refno c = (if s.chan = some c then 1 else 0) +
        s.running.countP fun t => (s.calls t).any fun call => call.ch = some c) ∧
      (s.running.Nodup ∧ ∀ t, t ∈ s.running ↔ (s.calls t).isSome) ∧
      (∀ c, s.made c = true → (s.deleted c = true ↔ s.refno c = 0)) ∧
      (∀ c, s.deleted c = true → s.made c = true ∧ s.dead c = true ∧ s.chan ≠ some c ∧
        ∀ t call, s.calls t = some call → call.ch ≠ some c) ∧
      (s.destructor = .destroyed → ∀ c, s.made c = true → s.deleted c = true) := by
  obtain ⟨hcounts, hcontrol⟩ := inv_of_reachable h
  refine ⟨hcounts.fault, fun c _ => hcounts.refs c, ⟨hcontrol.nodup, hcontrol.mem_running⟩,
    fun c hm => ?_, fun c hd => ?_, fun hd c hm => ?_⟩
  · rw [hcounts.deleted c]
    exact and_iff_right hm
  · obtain ⟨hm, hz⟩ := (hcounts.deleted c).mp hd
    rw [hcounts.refs c] at hz
    have hchan : s.chan ≠ some c := fun hc => by
      have := held_chan_pos hc
      omega
    refine ⟨hm, hcounts.dead c hm hchan, hchan, fun t call ht hc => ?_⟩
    have := held_ch_pos hcontrol ht hc
    omega
  · refine (hcounts.deleted c).mpr ⟨hm, ?_⟩
    have hr : s.running = [] := hcontrol.idle (by rw [hd]; decide)
    rw [hcounts.refs c, held, hcontrol.destroyed hd, holding, hr]
    rfl

/-- Two calls share a connection that dies.  The first one cannot reconnect and keeps
the dead connection, the second one gets a new connection, and the end of the first
one deletes the old connection. -/
def reconnect : List ChannelAct :=
  [.call 0, .test 0, .connect 0 (some 5), .take 0, .call 1, .test 1, .take 1, .die 5, .test 0,
    .giveUp 0, .connect 0 none, .leave 0, .use 0, .test 1, .connect 1 (some 6), .release 1,
    .take 1, .finish 0]

theorem channel_references_exact_reconnect : ∃ s s', channelMachine.Reachable s ∧
    s.chan = some 6 ∧ s.running = [1] ∧ s.deleted 5 = true ∧ s.dead 5 = true ∧ s.refno 6 = 2 ∧
    channelMachine.Reachable s' ∧ s'.destructor = .destroyed ∧ s'.deleted 6 = true := by
  obtain ⟨s, hs, hp⟩ := @Machine.exists_reachable_of_run _ _ channelMachine
    (fun s => decide (s.chan = some 6 ∧ s.running = [1] ∧ s.calls 1 = some ⟨some 6, .outside⟩ ∧
      s.made 5 = true ∧ s.made 6 = true ∧ s.refno 5 = 0)) reconnect (by decide)
  obtain ⟨hchan, hrunning, hcall, h₅, h₆, hzero⟩ := of_decide_eq_true hp
  obtain ⟨s', hs', hp'⟩ := @Machine.exists_reachable_of_run _ _ channelMachine
    (fun s => decide (s.destructor = .destroyed ∧ s.made 6 = true))
    (reconnect ++ [.finish 1, .close, .destroy]) (by decide)
  obtain ⟨hdestroyed, h₆'⟩ := of_decide_eq_true hp'
  obtain ⟨-, hrefs, -, hdeleted, hdead, -⟩ := channel_references_exact hs
  obtain ⟨-, -, -, -, -, hnone⟩ := channel_references_exact hs'
  have h := (hdeleted 5 h₅).mpr hzero
  refine ⟨s, s', hs, hchan, hrunning, h, (hdead 5 h).2.1, ?_, hs', hdestroyed,
    hnone hdestroyed 6 h₆'⟩
  rw [hrefs 6 h₆, hchan, hrunning]
  simp [hcall]

end Channel

end RpcLock.Rpcc
