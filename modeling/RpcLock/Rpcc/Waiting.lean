import RpcLock.Rpcc.Client

/-!
# What a waiting call can rely on

While xids are not reused, the acknowledgement a client sends with a request
never covers a call that is still waiting: every xid up to the front of the
window belongs to a call that has its reply or has returned.
-/

namespace RpcLock.Rpcc

namespace Client

/-- A call with this xid was made. -/
def Issued (c : Client) (x : UInt32) : Prop := ∃ t call, c.calls t = some call ∧ call.req.xid = x

/-- The call with this xid has its reply or has returned. -/
def Settled (c : Client) (x : UInt32) : Prop :=
  ∃ t call, c.calls t = some call ∧ call.req.xid = x ∧ (call.reply ≠ none ∨ call.ret ≠ none)

/-- What holds of a client with nonce `n` as long as its xids are fresh. -/
structure Ok (n : UInt32) (c : Client) : Prop where
  nonce : ∀ t call, c.calls t = some call → call.req.cltNonce = n
  /-- The xids handed out are the positive ones below `xid_`. -/
  pos : ∀ t call, c.calls t = some call → 0 < call.req.xid
  lt : ∀ t call, c.calls t = some call → c.xid ≠ 0 → call.req.xid < c.xid
  xid_inj : ∀ t u call call', c.calls t = some call → c.calls u = some call' →
    call.req.xid = call'.req.xid → t = u
  /-- `calls_` holds the calls that have not returned. -/
  pending : ∀ t call, c.calls t = some call → call.ret = none →
    c.pending call.req.xid = some t
  ofPending : ∀ x t, c.pending x = some t →
    ∃ call, c.calls t = some call ∧ call.ret = none ∧ call.req.xid = x
  /-- The window is made of settled xids. -/
  acked : ∃ R, Window R c.window ∧ ∀ x, R x → c.Settled x
  xidRep : ∀ t call, c.calls t = some call → call.req.xidRep ≤ front c.window

theorem ok_init (n : UInt32) : Ok n .init where
  nonce := by simp [Client.init]
  pos := by simp [Client.init]
  lt := by simp [Client.init]
  xid_inj := by simp [Client.init]
  pending := by simp [Client.init]
  ofPending := by simp [Client.init]
  acked := ⟨_, window_init, fun _ h => h.elim⟩
  xidRep := by simp [Client.init]

variable {n : UInt32} {c : Client} {t : Nat} {call : Call}

/-- The xid of a waiting call is above the front. -/
theorem Ok.front_lt (h : Ok n c) (ht : c.calls t = some call) (hret : call.ret = none)
    (hreply : call.reply = none) : front c.window < call.req.xid := by
  by_contra hle
  obtain ⟨R, hw, hR⟩ := h.acked
  obtain ⟨u, call', hu, hx, hdone⟩ := hR _ (hw.acked _ (h.pos t call ht) (not_lt.mp hle))
  have htu : t = u := h.xid_inj t u call call' ht hu hx.symm
  subst htu
  rw [ht] at hu
  cases hu
  exact hdone.elim (fun hd => hd hreply) fun hd => hd hret

theorem Settled.not_waiting {x : UInt32} (hs : c.Settled x) (h : Ok n c)
    (ht : c.calls t = some call) (hx : call.req.xid = x) :
    call.reply ≠ none ∨ call.ret ≠ none := by
  obtain ⟨u, call', hu, hx', hdone⟩ := hs
  have htu : t = u := h.xid_inj t u call call' ht hu (by rw [hx, hx'])
  subst htu
  rw [ht] at hu
  cases hu
  exact hdone

/-! ## The steps -/

/-- The entry of `call1`. -/
theorem Ok.entry (h : Ok n c) (hx0 : c.xid ≠ 0) (ht : c.calls t = none) {proc : UInt32}
    {args : List UInt8} :
    Ok n (({ c with
      xid := c.xid + 1
      pending := Function.update c.pending c.xid (some t) } : Client).setCall t
        ⟨c.packRequest n proc args, none, none, false⟩) := by
  have hne : ∀ u call, c.calls u = some call → call.req.xid ≠ c.xid := fun u call hu =>
    ne_of_lt (h.lt u call hu hx0)
  have hsucc : c.xid + 1 ≠ 0 → c.xid < c.xid + 1 := by
    intro hc
    rw [ne_eq, ← UInt32.toNat_inj] at hc
    simp only [UInt32.toNat_add, UInt32.reduceToNat] at hc
    simp only [UInt32.lt_iff_toNat_lt, UInt32.toNat_add, UInt32.reduceToNat]
    have := c.xid.toNat_lt
    omega
  have hsettled : ∀ x, c.Settled x →
      (({ c with
        xid := c.xid + 1
        pending := Function.update c.pending c.xid (some t) } : Client).setCall t
          ⟨c.packRequest n proc args, none, none, false⟩).Settled x := by
    rintro x ⟨u, call', hu, hrest⟩
    have hut : u ≠ t := by
      rintro rfl
      rw [ht] at hu
      cases hu
    exact ⟨u, call', by rw [setCall_calls_ne _ _ hut]; exact hu, hrest⟩
  constructor
  · intro u call' hu
    rcases setCall_calls_cases hu with ⟨rfl, rfl⟩ | ⟨-, hu⟩
    · rfl
    · exact h.nonce u call' hu
  · intro u call' hu
    rcases setCall_calls_cases hu with ⟨rfl, rfl⟩ | ⟨-, hu⟩
    · exact lt_of_le_of_ne UInt32.zero_le (Ne.symm hx0)
    · exact h.pos u call' hu
  · intro u call' hu hx
    rcases setCall_calls_cases hu with ⟨rfl, rfl⟩ | ⟨-, hu⟩
    · exact hsucc hx
    · exact lt_trans (h.lt u call' hu hx0) (hsucc hx)
  · intro u v call' call'' hu hv hx
    rcases setCall_calls_cases hu with ⟨rfl, rfl⟩ | ⟨-, hu⟩ <;>
      rcases setCall_calls_cases hv with ⟨rfl, rfl⟩ | ⟨-, hv⟩
    · rfl
    · exact absurd hx.symm (hne v call'' hv)
    · exact absurd hx (hne u call' hu)
    · exact h.xid_inj u v call' call'' hu hv hx
  · intro u call' hu hret
    rcases setCall_calls_cases hu with ⟨rfl, rfl⟩ | ⟨-, hu⟩
    · simp [packRequest]
    · simpa [hne u call' hu] using h.pending u call' hu hret
  · intro x u hxu
    by_cases hx : x = c.xid
    · subst hx
      simp only [setCall_pending, Function.update_self, Option.some.injEq] at hxu
      subst hxu
      exact ⟨_, setCall_calls_self _ _ _, rfl, rfl⟩
    · simp only [setCall_pending, ne_eq, hx, not_false_eq_true, Function.update_of_ne] at hxu
      obtain ⟨call', hu, hret, hx'⟩ := h.ofPending x u hxu
      have hut : u ≠ t := by
        rintro rfl
        rw [ht] at hu
        cases hu
      exact ⟨call', by rw [setCall_calls_ne _ _ hut]; exact hu, hret, hx'⟩
  · obtain ⟨R, hw, hR⟩ := h.acked
    exact ⟨R, hw, fun x hx => hsettled x (hR x hx)⟩
  · intro u call' hu
    rcases setCall_calls_cases hu with ⟨rfl, rfl⟩ | ⟨-, hu⟩
    · exact le_rfl
    · exact h.xidRep u call' hu

/-- What the other steps do to the calls: requests stay, replies and results are
only added. -/
structure Evolves (c c' : Client) : Prop where
  fwd : ∀ t call, c.calls t = some call → ∃ call', c'.calls t = some call' ∧
    call'.req = call.req ∧ (call.reply ≠ none → call'.reply ≠ none) ∧
    (call.ret ≠ none → call'.ret ≠ none)
  bwd : ∀ t call', c'.calls t = some call' → ∃ call, c.calls t = some call ∧
    call'.req = call.req ∧ (call.ret ≠ none → call'.ret ≠ none)

variable {c' : Client}

theorem Evolves.settled (he : Evolves c c') {x : UInt32} (hs : c.Settled x) : c'.Settled x := by
  obtain ⟨t, call, ht, hx, hdone⟩ := hs
  obtain ⟨call', ht', hreq, hreply, hret⟩ := he.fwd t call ht
  exact ⟨t, call', ht', by rw [hreq, hx], hdone.imp hreply hret⟩

/-- A step that reports an xid reports a settled one, or 0. -/
theorem Ok.report (h : Ok n c) (he : Evolves c c') (hxid : c'.xid = c.xid) {x : UInt32}
    (hwin : c'.window = updateXidRep c.window x) (hx : 0 < x → c'.Settled x)
    (hpend : ∀ t call, c'.calls t = some call → call.ret = none →
      c'.pending call.req.xid = some t)
    (hof : ∀ y t, c'.pending y = some t →
      ∃ call, c'.calls t = some call ∧ call.ret = none ∧ call.req.xid = y) : Ok n c' := by
  obtain ⟨R, hw, hR⟩ := h.acked
  obtain ⟨hw', hfront⟩ := hw.update x
  refine ⟨?_, ?_, ?_, ?_, hpend, hof, ⟨_, hwin ▸ hw', ?_⟩, ?_⟩
  · intro t call ht
    obtain ⟨call₀, ht₀, hreq, -⟩ := he.bwd t call ht
    exact hreq ▸ h.nonce t call₀ ht₀
  · intro t call ht
    obtain ⟨call₀, ht₀, hreq, -⟩ := he.bwd t call ht
    exact hreq ▸ h.pos t call₀ ht₀
  · intro t call ht hne
    obtain ⟨call₀, ht₀, hreq, -⟩ := he.bwd t call ht
    rw [hreq, hxid]
    exact h.lt t call₀ ht₀ (hxid ▸ hne)
  · intro t u call call' ht hu hxx
    obtain ⟨call₀, ht₀, hreq, -⟩ := he.bwd t call ht
    obtain ⟨call₁, hu₁, hreq', -⟩ := he.bwd u call' hu
    exact h.xid_inj t u call₀ call₁ ht₀ hu₁ (by rw [← hreq, ← hreq', hxx])
  · rintro y (hy | ⟨rfl, hpos⟩)
    · exact he.settled (hR y hy)
    · exact hx hpos
  · intro t call ht
    obtain ⟨call₀, ht₀, hreq, -⟩ := he.bwd t call ht
    rw [hreq, hwin]
    exact le_trans (h.xidRep t call₀ ht₀) hfront

/-- Replacing one call by its next state. -/
theorem evolves_setCall {c₁ : Client} {call' : Call} (hcalls : c₁.calls = c.calls)
    (ht : c.calls t = some call) (hreq : call'.req = call.req)
    (hreply : call.reply ≠ none → call'.reply ≠ none) (hret : call.ret ≠ none → call'.ret ≠ none) :
    Evolves c (c₁.setCall t call') where
  fwd u call₀ hu := by
    by_cases hut : u = t
    · subst hut
      rw [ht] at hu
      cases hu
      exact ⟨call', setCall_calls_self _ _ _, hreq, hreply, hret⟩
    · exact ⟨call₀, by rw [setCall_calls_ne _ _ hut, hcalls]; exact hu, rfl, id, id⟩
  bwd u call₀ hu := by
    rcases setCall_calls_cases hu with ⟨rfl, rfl⟩ | ⟨-, hu⟩
    · exact ⟨call, ht, hreq, hret⟩
    · exact ⟨call₀, hcalls ▸ hu, rfl, id⟩

theorem Evolves.of_calls_eq (h : c'.calls = c.calls) : Evolves c c' where
  fwd t call ht := ⟨call, by rw [h]; exact ht, rfl, id, id⟩
  bwd t call ht := ⟨call, by rw [← h]; exact ht, rfl, id⟩

/-- The end of `call1`. -/
theorem Ok.finish (h : Ok n c) (ht : c.calls t = some call) :
    Ok n (({ c with
      pending := Function.update c.pending call.req.xid none
      window := updateXidRep c.window call.req.xid } : Client).setCall t
        { call with ret := some call.result }) := by
  have he : Evolves c (({ c with
      pending := Function.update c.pending call.req.xid none
      window := updateXidRep c.window call.req.xid } : Client).setCall t
        { call with ret := some call.result }) :=
    evolves_setCall rfl ht rfl id (by simp)
  refine h.report he rfl rfl (fun _ => ⟨t, _, setCall_calls_self _ _ _, rfl, by simp⟩) ?_ ?_
  · intro u call' hu hret
    rcases setCall_calls_cases hu with ⟨rfl, rfl⟩ | ⟨hut, hu⟩
    · simp at hret
    · have hne : call'.req.xid ≠ call.req.xid := fun hx => hut (h.xid_inj u t call' call hu ht hx)
      simpa [hne] using h.pending u call' hu hret
  · intro y u hy
    by_cases hyx : y = call.req.xid
    · simp [hyx] at hy
    · simp only [setCall_pending, ne_eq, hyx, not_false_eq_true, Function.update_of_ne] at hy
      obtain ⟨call', hu, hret, hx⟩ := h.ofPending y u hy
      have hut : u ≠ t := by
        rintro rfl
        rw [ht] at hu
        cases hu
        exact hyx hx.symm
      exact ⟨call', by rw [setCall_calls_ne _ _ hut]; exact hu, hret, hx⟩

/-- A call whose reply or bound flag changes keeps its place in `calls_`. -/
theorem Ok.keepPending (h : Ok n c) {c₁ : Client} {call' : Call} (hcalls : c₁.calls = c.calls)
    (hpend : c₁.pending = c.pending) (ht : c.calls t = some call) (hreq : call'.req = call.req)
    (hret : call'.ret = call.ret) :
    (∀ u call₀, (c₁.setCall t call').calls u = some call₀ → call₀.ret = none →
      (c₁.setCall t call').pending call₀.req.xid = some u) ∧
    ∀ y u, (c₁.setCall t call').pending y = some u →
      ∃ call₀, (c₁.setCall t call').calls u = some call₀ ∧ call₀.ret = none ∧
        call₀.req.xid = y := by
  constructor
  · intro u call₀ hu hr
    rw [setCall_pending, hpend]
    rcases setCall_calls_cases hu with ⟨rfl, rfl⟩ | ⟨-, hu⟩
    · rw [hreq]
      exact h.pending u call ht (hret ▸ hr)
    · exact h.pending u call₀ (hcalls ▸ hu) hr
  · intro y u hy
    rw [setCall_pending, hpend] at hy
    obtain ⟨call₀, hu, hr, hx⟩ := h.ofPending y u hy
    by_cases hut : u = t
    · subst hut
      rw [ht] at hu
      cases hu
      exact ⟨call', setCall_calls_self _ _ _, by rw [hret, hr], by rw [hreq, hx]⟩
    · exact ⟨call₀, by rw [setCall_calls_ne _ _ hut, hcalls]; exact hu, hr, hx⟩

/-- The end of `bind`. -/
theorem Ok.storeNonce (h : Ok n c) (ht : c.calls t = some call) (nonce : UInt32) :
    Ok n (({ c with bindDone := true, srvNonce := nonce } : Client).setCall t
      { call with bound := true }) := by
  have he : Evolves c (({ c with bindDone := true, srvNonce := nonce } : Client).setCall t
      { call with bound := true }) := evolves_setCall rfl ht rfl id id
  obtain ⟨hp, hof⟩ := @Ok.keepPending n c t call h { c with bindDone := true, srvNonce := nonce }
    { call with bound := true } rfl rfl ht rfl rfl
  refine h.report he rfl (x := 0) ?_ (fun h0 => absurd h0 (lt_irrefl _)) hp hof
  simp [updateXidRep]

/-- A reply for a call that is not waiting, or for no call. -/
theorem Ok.ignored (h : Ok n c) {x : UInt32} (hx : x = 0 ∨ c.Issued x)
    (hdone : ∀ t call, c.pending x = some t → c.calls t = some call → call.reply ≠ none) :
    Ok n { c with window := updateXidRep c.window x } := by
  refine h.report (.of_calls_eq rfl) rfl rfl (fun hpos => ?_) h.pending h.ofPending
  rcases hx with rfl | ⟨t, call, ht, hxx⟩
  · exact absurd hpos (lt_irrefl _)
  · refine ⟨t, call, ht, hxx, ?_⟩
    by_cases hret : call.ret = none
    · exact .inl (hdone t call (hxx ▸ h.pending t call ht hret) ht)
    · exact .inr hret

/-- A reply for a waiting call. -/
theorem Ok.takenIn (h : Ok n c) {r : Reply} (hpend : c.pending r.xid = some t)
    (ht : c.calls t = some call) :
    Ok n (({ c with window := updateXidRep c.window r.xid } : Client).setCall t
      { call with reply := some r }) := by
  have he : Evolves c (({ c with window := updateXidRep c.window r.xid } : Client).setCall t
      { call with reply := some r }) := evolves_setCall rfl ht rfl (by simp) id
  obtain ⟨hp, hof⟩ := @Ok.keepPending n c t call h
    { c with window := updateXidRep c.window r.xid } { call with reply := some r } rfl rfl ht rfl rfl
  obtain ⟨call', ht', -, hx⟩ := h.ofPending _ _ hpend
  rw [ht] at ht'
  cases ht'
  exact h.report he rfl rfl (fun _ => ⟨t, _, setCall_calls_self _ _ _, hx, .inl (by simp)⟩) hp hof

end Client

end RpcLock.Rpcc
