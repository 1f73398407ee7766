import RpcLock.Connection.Send

/-!
# The bytes on the socket

The bytes the socket accepted are complete PDUs in the order their senders took
the slot, and at most one incomplete PDU behind them.  The slot goes through
three states: free, in use by a sender that waits on `send_complete_`, and given
up after a failed write.  A connection on which a PDU was given up is dead, and
nothing is written on a dead connection.
-/

namespace RpcLock.Connection

/-- The sender has the slot. -/
def Sender.holds (x : Sender) : Bool :=
  match x.phase with
  | .waitComplete | .failed | .removing => true
  | .waitSlot | .returned _ => false

/-- The sender has given up, or the PDU it sent was not completed. -/
def Sender.gaveUp (x : Sender) : Bool :=
  match x.phase with
  | .failed | .removing => true
  | .returned ret => !ret
  | .waitSlot | .waitComplete => false

namespace Conn

/-- Complete PDUs and at most one incomplete PDU, in the order of the senders. -/
def AtomicBytes (s : Conn) : Prop :=
  ∃ done part, s.out = wire (done.map Prod.snd) ++ part ∧
    (s.installed = done ∧ part = [] ∨
      ∃ e, s.installed = done ++ [e] ∧ part <+: e.2.framed ∧ part ≠ e.2.framed)

/-- The PDU of thread `t` was written as a whole, and no other entry is of `t`. -/
def SentOnce (s : Conn) (t : Nat) (pdu : Pdu) : Prop :=
  ∃ before after, s.installed = before ++ (t, pdu) :: after ∧
    wire ((before ++ [(t, pdu)]).map Prod.snd) <+: s.out ∧ ∀ e ∈ before ++ after, e.1 ≠ t

/-! ## The slot -/

/-- Thread `t` has the slot, and `k` bytes of its PDU are written. -/
structure Progress (s : Conn) (t : Nat) (p : Pdu) (k : Nat) : Prop where
  others : ∀ u x, s.senders u = some x → x.holds = true → u = t
  bytes : ∃ done, s.installed = done ++ [(t, p)] ∧
    s.out = wire (done.map Prod.snd) ++ p.framed.take k
  le_size : k ≤ p.size
  buf : ∃ b, s.wpdu.buf = some b ∧ b.drop 4 = p.bytes.drop 4 ∧ (0 < k → b = p.framed)

/-- `wpdu_` counts the bytes that are written. -/
def Live (s : Conn) (p : Pdu) (k : Nat) : Prop := s.wpdu.sz = p.size ∧ s.wpdu.solong = k

/-- `wpdu_` after a failed write. -/
def Failed (s : Conn) : Prop := s.wpdu.sz = 0 ∧ s.wpdu.solong = -1

/-- The states of the write slot. -/
inductive Slot (s : Conn) : Prop where
  | free : s.wpdu = .empty → (∀ u x, s.senders u = some x → x.holds = false) →
      (s.dead = false → s.out = wire (s.installed.map Prod.snd)) → s.AtomicBytes → Slot s
  | writing {t p k} : s.senders t = some ⟨p, .waitComplete⟩ → s.Progress t p k → s.Live p k →
      Slot s
  | givenUp {t x k} : s.senders t = some x → x.holds = true → s.Progress t x.pdu k →
      s.Failed → s.dead = true → Slot s

/-- What every critical section keeps. -/
structure Writes (s : Conn) : Prop where
  slot : s.Slot
  /-- A thread takes the slot once. -/
  once : (s.installed.map Prod.fst).Nodup
  entered : ∀ e ∈ s.installed, ∃ x, s.senders e.1 = some x ∧ x.phase ≠ .waitSlot
  sent : ∀ t x, s.senders t = some x → x.phase = .returned true → s.SentOnce t x.pdu
  gaveUp : ∀ t x, s.senders t = some x → x.gaveUp = true → s.dead = true

@[simp] theorem setSender_dead (s : Conn) (t : Nat) (x : Sender) :
    (s.setSender t x).dead = s.dead := rfl
@[simp] theorem setSender_wpdu (s : Conn) (t : Nat) (x : Sender) :
    (s.setSender t x).wpdu = s.wpdu := rfl
@[simp] theorem setSender_installed (s : Conn) (t : Nat) (x : Sender) :
    (s.setSender t x).installed = s.installed := rfl
@[simp] theorem setSender_out (s : Conn) (t : Nat) (x : Sender) :
    (s.setSender t x).out = s.out := rfl
@[simp] theorem setSender_senders_self (s : Conn) (t : Nat) (x : Sender) :
    (s.setSender t x).senders t = some x := by simp [setSender]
theorem setSender_senders_ne (s : Conn) {t u : Nat} (x : Sender) (h : u ≠ t) :
    (s.setSender t x).senders u = s.senders u := by simp [setSender, h]

variable {s s' : Conn} {t : Nat} {p : Pdu} {k : Nat}

theorem setSender_senders_cases {x y : Sender} {u : Nat} (h : (s.setSender t x).senders u = some y) :
    (u = t ∧ y = x) ∨ (u ≠ t ∧ s.senders u = some y) := by
  by_cases hu : u = t
  · subst hu
    rw [setSender_senders_self] at h
    exact .inl ⟨rfl, (Option.some.inj h).symm⟩
  · rw [setSender_senders_ne s x hu] at h
    exact .inr ⟨hu, h⟩

theorem writes_init : Writes init where
  slot := .free rfl (by simp [init]) (fun _ => rfl) ⟨[], [], rfl, .inl ⟨rfl, rfl⟩⟩
  once := List.nodup_nil
  entered := by simp [init]
  sent := by simp [init]
  gaveUp := by simp [init]

/-- Bytes and senders that come later leave a complete PDU where it is. -/
theorem SentOnce.mono (h : s.SentOnce t p) (hout : s.out <+: s'.out)
    (hinst : s'.installed = s.installed ∨
      ∃ e, s'.installed = s.installed ++ [e] ∧ e.1 ≠ t) : s'.SentOnce t p := by
  obtain ⟨before, after, hi, hw, hne⟩ := h
  rcases hinst with he | ⟨e, he, het⟩
  · exact ⟨before, after, he.trans hi, hw.trans hout, hne⟩
  · refine ⟨before, after ++ [e], by rw [he, hi]; simp, hw.trans hout, fun e' he' => ?_⟩
    rw [← List.append_assoc] at he'
    rcases List.mem_append.mp he' with h' | h'
    · exact hne e' h'
    · rw [List.mem_singleton.mp h']
      exact het

/-- What is on the socket when a sender has the slot. -/
theorem Progress.atomicBytes (h : s.Progress t p k) : s.AtomicBytes := by
  obtain ⟨done, hi, ho⟩ := h.bytes
  by_cases hk : k = p.size
  · refine ⟨done ++ [(t, p)], [], ?_, .inl ⟨hi, rfl⟩⟩
    rw [ho, hk, List.take_of_length_le (by simp)]
    simp
  · refine ⟨done, p.framed.take k, ho, .inr ⟨(t, p), hi, List.take_prefix _ _, fun he => hk ?_⟩⟩
    have hlen := congrArg List.length he
    have hle := h.le_size
    simp only [List.length_take, Pdu.length_framed] at hlen
    omega

theorem Slot.atomicBytes (h : s.Slot) : s.AtomicBytes := by
  cases h with
  | free _ _ _ ha => exact ha
  | writing _ hp _ => exact hp.atomicBytes
  | givenUp _ _ hp _ _ => exact hp.atomicBytes

/-- What one `writepdu` does. -/
theorem Progress.writepdu {r : WriteResult} {ok : Bool} (h : s.Progress t p k) (hl : s.Live p k)
    (hw : s.writepdu r = some (s', ok)) :
    ∃ k' w o, s' = { s with wpdu := w, out := o } ∧ s.out <+: s'.out ∧ s'.Progress t p k' ∧
      (ok = true ∧ s'.Live p k' ∨ ok = false ∧ s'.Failed) := by
  obtain ⟨hsz, hso⟩ := hl
  unfold Conn.writepdu at hw
  simp only [hsz, hso] at hw
  split at hw
  · cases hw
    exact ⟨k, s.wpdu, s.out, rfl, List.prefix_rfl, h, .inl ⟨rfl, hsz, hso⟩⟩
  · obtain ⟨b, hb, hdrop, hfull⟩ := h.buf
    -- the size is put in front once, before the first byte
    have hbuf : (if (k : Int) = 0 then s.wpdu.buf.map (putSize (p.size : Int).toNat)
        else s.wpdu.buf) = some p.framed := by
      by_cases hk : (k : Int) = 0
      · rw [if_pos hk, hb, Option.map_some, Int.toNat_natCast, putSize_of_drop_eq hdrop]
      · rw [if_neg hk, hb, hfull (by omega)]
    rw [hbuf] at hw
    have hkeep : ∃ b, some p.framed = some b ∧ b.drop 4 = p.bytes.drop 4 ∧
        (0 < k → b = p.framed) := ⟨p.framed, rfl, drop_framed p, fun _ => rfl⟩
    cases r with
    | wrote n =>
        simp only at hw
        split at hw
        · next hn =>
            cases hw
            obtain ⟨done, hi, ho⟩ := h.bytes
            refine ⟨k + n, _, _, rfl, List.prefix_append _ _, ⟨h.others, ⟨done, hi, ?_⟩, ?_, ?_⟩,
              .inl ⟨rfl, rfl, by simp⟩⟩
            · simp only [Option.getD_some, Int.toNat_natCast]
              rw [ho, List.append_assoc, List.take_add]
            · omega
            · exact ⟨p.framed, rfl, drop_framed p, fun _ => rfl⟩
        · cases hw
    | again =>
        cases hw
        exact ⟨k, _, _, rfl, List.prefix_rfl, ⟨h.others, h.bytes, h.le_size, hkeep⟩,
          .inl ⟨rfl, rfl, rfl⟩⟩
    | error =>
        cases hw
        exact ⟨k, _, _, rfl, List.prefix_rfl, ⟨h.others, h.bytes, h.le_size, hkeep⟩,
          .inr ⟨rfl, rfl, rfl⟩⟩

/-! ## Inside a critical section -/

theorem Progress.frame (h : s.Progress t p k) (hw : s'.wpdu = s.wpdu)
    (hs : s'.senders = s.senders) (hi : s'.installed = s.installed) (ho : s'.out = s.out) :
    s'.Progress t p k where
  others := by rw [hs]; exact h.others
  bytes := by rw [hi, ho]; exact h.bytes
  le_size := h.le_size
  buf := by rw [hw]; exact h.buf

/-- Steps that touch neither the slot, nor the senders, nor the bytes. -/
theorem Writes.frame (h : s.Writes) (hd : s.dead = true → s'.dead = true)
    (hw : s'.wpdu = s.wpdu) (hs : s'.senders = s.senders) (hi : s'.installed = s.installed)
    (ho : s'.out = s.out) : s'.Writes where
  slot := by
    cases h.slot with
    | free hwp hno hall hat =>
        refine .free (hw.trans hwp) (by rw [hs]; exact hno) (fun hd' => ?_)
          (by unfold AtomicBytes; rw [hi, ho]; exact hat)
        rw [hi, ho]
        refine hall (Bool.eq_false_iff.mpr fun hdead => ?_)
        rw [hd hdead] at hd'
        cases hd'
    | writing ht hp hl =>
        exact .writing (by rw [hs]; exact ht) (hp.frame hw hs hi ho)
          (by unfold Live; rw [hw]; exact hl)
    | givenUp ht hx hp hf hdead =>
        exact .givenUp (by rw [hs]; exact ht) hx (hp.frame hw hs hi ho)
          (by unfold Failed; rw [hw]; exact hf) (hd hdead)
  once := by rw [hi]; exact h.once
  entered := by rw [hi, hs]; exact h.entered
  sent t x ht hx := by
    rw [hs] at ht
    exact (h.sent t x ht hx).mono (by simp only [ho, List.prefix_rfl]) (.inl hi)
  gaveUp t x ht hx := by
    rw [hs] at ht
    exact hd (h.gaveUp t x ht hx)

/-- A thread that has not had the slot waits for it or is refused. -/
theorem Writes.outside (h : s.Writes) {x : Sender}
    (ht : ∀ y, s.senders t = some y → y.phase = .waitSlot)
    (hx : x.phase = .waitSlot ∨ x.phase = .returned false ∧ s.dead = true) :
    (s.setSender t x).Writes where
  slot := by
    have hxh : x.holds = false := by
      rcases hx with hx | ⟨hx, -⟩ <;> simp [Sender.holds, hx]
    have hne : ∀ {u y}, s.senders u = some y → y.holds = true → u ≠ t := by
      rintro u y hu hy rfl
      simp [Sender.holds, ht y hu] at hy
    have hprog : ∀ {u q k}, s.Progress u q k → (s.setSender t x).Progress u q k := fun hp =>
      ⟨fun v y hv hy => by
          rcases setSender_senders_cases hv with ⟨-, rfl⟩ | ⟨-, hv⟩
          · simp [hxh] at hy
          · exact hp.others v y hv hy,
        hp.bytes, hp.le_size, hp.buf⟩
    cases h.slot with
    | free hwp hno hall hat =>
        refine .free hwp (fun u y hu => ?_) hall hat
        rcases setSender_senders_cases hu with ⟨-, rfl⟩ | ⟨-, hu⟩
        · exact hxh
        · exact hno u y hu
    | writing hu hp hl =>
        exact .writing ((setSender_senders_ne s x (hne hu rfl)).trans hu) (hprog hp) hl
    | givenUp hu hy hp hf hdead =>
        exact .givenUp ((setSender_senders_ne s x (hne hu hy)).trans hu) hy (hprog hp) hf hdead
  once := h.once
  entered e he := by
    obtain ⟨y, hy, hne⟩ := h.entered e he
    have het : e.1 ≠ t := by
      intro het
      exact hne (ht y (het ▸ hy))
    exact ⟨y, (setSender_senders_ne s x het).trans hy, hne⟩
  sent u y hu hy := by
    rcases setSender_senders_cases hu with ⟨-, rfl⟩ | ⟨-, hu⟩
    · rcases hx with hx | ⟨hx, -⟩ <;> simp [hx] at hy
    · exact h.sent u y hu hy
  gaveUp u y hu hy := by
    rcases setSender_senders_cases hu with ⟨-, rfl⟩ | ⟨-, hu⟩
    · rcases hx with hx | ⟨-, hdead⟩
      · simp [Sender.gaveUp, hx] at hy
      · exact hdead
    · exact h.gaveUp u y hu hy

/-- What holds of the other threads while `t` has the mutex.  Its own entry is
about to be set. -/
structure Others (s : Conn) (t : Nat) : Prop where
  once : (s.installed.map Prod.fst).Nodup
  entered : ∀ e ∈ s.installed, e.1 ≠ t → ∃ x, s.senders e.1 = some x ∧ x.phase ≠ .waitSlot
  sent : ∀ u x, u ≠ t → s.senders u = some x → x.phase = .returned true → s.SentOnce u x.pdu
  gaveUp : ∀ u x, u ≠ t → s.senders u = some x → x.gaveUp = true → s.dead = true

theorem Writes.others (h : s.Writes) (t : Nat) : s.Others t where
  once := h.once
  entered e he _ := h.entered e he
  sent u x _ := h.sent u x
  gaveUp u x _ := h.gaveUp u x

theorem Others.frame (h : s.Others t) (hd : s.dead = true → s'.dead = true)
    (hs : s'.senders = s.senders) (hi : s'.installed = s.installed) (ho : s.out <+: s'.out) :
    s'.Others t where
  once := by rw [hi]; exact h.once
  entered := by rw [hi, hs]; exact h.entered
  sent u x hu hx hph := by
    rw [hs] at hx
    exact (h.sent u x hu hx hph).mono ho (.inl hi)
  gaveUp u x hu hx hg := by
    rw [hs] at hx
    exact hd (h.gaveUp u x hu hx hg)

theorem Others.set (h : s.Others t) {x : Sender} (hslot : (s.setSender t x).Slot)
    (hx : x.phase ≠ .waitSlot) (hsent : x.phase = .returned true → s.SentOnce t x.pdu)
    (hgave : x.gaveUp = true → s.dead = true) : (s.setSender t x).Writes where
  slot := hslot
  once := h.once
  entered e he := by
    by_cases het : e.1 = t
    · exact ⟨x, by rw [het, setSender_senders_self], hx⟩
    · obtain ⟨y, hy, hne⟩ := h.entered e he het
      exact ⟨y, (setSender_senders_ne s x het).trans hy, hne⟩
  sent u y hu hy := by
    rcases setSender_senders_cases hu with ⟨rfl, rfl⟩ | ⟨hut, hu⟩
    · exact hsent hy
    · exact h.sent u y hut hu hy
  gaveUp u y hu hy := by
    rcases setSender_senders_cases hu with ⟨-, rfl⟩ | ⟨hut, hu⟩
    · exact hgave hy
    · exact h.gaveUp u y hut hu hy

theorem Progress.setSender (h : s.Progress t p k) (x : Sender) :
    (s.setSender t x).Progress t p k where
  others u y hu hy := by
    rcases setSender_senders_cases hu with ⟨rfl, -⟩ | ⟨-, hu⟩
    · rfl
    · exact h.others u y hu hy
  bytes := h.bytes
  le_size := h.le_size
  buf := h.buf

/-- The sender goes on waiting for its PDU. -/
theorem Others.writing (h : s.Others t) (hp : s.Progress t p k) (hl : s.Live p k) :
    (s.setSender t ⟨p, .waitComplete⟩).Writes :=
  h.set (.writing (setSender_senders_self _ _ _) (hp.setSender _) hl) (by simp) (by simp)
    (by simp [Sender.gaveUp])

/-- The sender gives its PDU up. -/
theorem Others.givenUp {x : Sender} (h : s.Others t) (hp : s.Progress t x.pdu k) (hf : s.Failed)
    (hd : s.dead = true) (hx : x.holds = true) : (s.setSender t x).Writes := by
  refine h.set (.givenUp (setSender_senders_self _ _ _) hx (hp.setSender _) hf hd) ?_ ?_
    (fun _ => hd)
  · intro hw
    simp [Sender.holds, hw] at hx
  · intro hr
    simp [Sender.holds, hr] at hx

/-- The PDU in the slot is complete, or the connection is dead. -/
def Over (s : Conn) (p : Pdu) (k : Nat) : Prop :=
  s.Live p k ∧ (s.dead = true ∨ k = p.size) ∨ s.Failed ∧ s.dead = true

/-- The end of `send`. -/
theorem Others.finishSend (h : s.Others t) (hp : s.Progress t p k) (hover : s.Over p k) :
    (s.finishSend t p).Writes := by
  obtain ⟨done, hi, ho⟩ := hp.bytes
  have hcomplete : s.dead = false → k = p.size := by
    intro hd
    rcases hover with ⟨-, hdead | hk⟩ | ⟨-, hdead⟩
    · simp [hd] at hdead
    · exact hk
    · simp [hd] at hdead
  have hwhole : s.dead = false → s.out = wire (s.installed.map Prod.snd) := by
    intro hd
    rw [ho, hi, hcomplete hd, List.take_of_length_le (by simp)]
    simp
  have hsent : s.dead = false → s.releaseSlot.SentOnce t p := by
    intro hd
    refine ⟨done, [], hi, ?_, fun e he => ?_⟩
    · rw [← hi, ← hwhole hd]
      exact List.prefix_rfl
    · have hnd := h.once
      rw [hi, List.map_append, List.nodup_append] at hnd
      rw [List.append_nil] at he
      exact hnd.2.2 e.1 (List.mem_map_of_mem he) t (by simp)
  have hrel : s.releaseSlot.Others t := h.frame id rfl rfl List.prefix_rfl
  refine hrel.set (.free rfl (fun u y hu => ?_) hwhole hp.atomicBytes) (by simp) ?_ ?_
  · rcases setSender_senders_cases hu with ⟨-, rfl⟩ | ⟨hut, hu⟩
    · rfl
    · by_contra hy
      exact hut (hp.others u y hu (by simpa using hy))
  · intro hret
    simp only [SendPhase.returned.injEq, Bool.and_eq_true, Bool.not_eq_true'] at hret
    exact hsent hret.1
  · intro hgave
    cases hd : s.dead with
    | true => exact hd
    | false =>
        -- the sender of a complete PDU returns true
        have hk := hcomplete hd
        rcases hover with ⟨⟨hsz, hso⟩, -⟩ | ⟨-, hdead⟩
        · simp [Sender.gaveUp, hd, hsz, hso, hk] at hgave
        · simp [hd] at hdead

/-! ## The steps -/

theorem setSender_eq_self {x : Sender} (h : s.senders t = some x) : s.setSender t x = s := by
  rw [setSender, ← h, Function.update_eq_self]

/-- What one `writepdu` does, with the threads that are not at it. -/
theorem Others.writepdu {r : WriteResult} {ok : Bool} (h : s.Others t) (hp : s.Progress t p k)
    (hl : s.Live p k) (hw : s.writepdu r = some (s', ok)) :
    ∃ k', s'.Progress t p k' ∧ s'.Others t ∧
      (ok = true ∧ s'.Live p k' ∨ ok = false ∧ s'.Failed) := by
  obtain ⟨k', b, o, rfl, hpre, hp', hst⟩ := hp.writepdu hl hw
  exact ⟨k', hp', h.frame id rfl rfl hpre, hst⟩

/-- The head of the loop that waits on `send_complete_`. -/
theorem Others.waitComplete (h : s.Others t) (hp : s.Progress t p k)
    (hst : s.Live p k ∨ s.Failed ∧ s.dead = true) : (s.waitComplete t p).Writes := by
  unfold Conn.waitComplete
  split
  · next hc =>
      rcases hst with hl | ⟨-, hd⟩
      · exact Others.writing (h.frame id rfl rfl List.prefix_rfl) (hp.frame rfl rfl rfl rfl) hl
      · simp [hd] at hc
  · next hc =>
      refine h.finishSend hp ?_
      rcases hst with hl | hf
      · refine .inl ⟨hl, ?_⟩
        cases hd : s.dead with
        | true => exact .inl rfl
        | false =>
            refine .inr ?_
            obtain ⟨hsz, hso⟩ := hl
            have hle := hp.le_size
            simp only [hd, hsz, hso, true_and, not_and] at hc
            have := hc (by omega)
            omega
      · exact .inr hf

/-- A sender takes the free slot of a live connection. -/
theorem Others.install {r : WriteResult} (h : s.Others t)
    (hno : ∀ u x, s.senders u = some x → x.holds = false)
    (hout : s.out = wire (s.installed.map Prod.snd)) (hnew : ∀ e ∈ s.installed, e.1 ≠ t)
    (hn : s.install t p r = some s') : s'.Writes := by
  have hp : (s.taken t p).Progress t p 0 :=
    { others := fun u x hu hx => by simp [hno u x hu] at hx
      bytes := ⟨s.installed, rfl, by simpa [taken] using hout⟩
      le_size := Nat.zero_le _
      buf := ⟨p.bytes, rfl, rfl, fun h0 => absurd h0 (Nat.lt_irrefl 0)⟩ }
  have ho : (s.taken t p).Others t :=
    { once := by
        simp only [taken, List.map_append, List.map_cons, List.map_nil]
        refine List.nodup_append.mpr ⟨h.once, by simp, fun x hx y hy => ?_⟩
        obtain ⟨e, he, rfl⟩ := List.mem_map.mp hx
        rw [List.mem_singleton.mp hy]
        exact hnew e he
      entered := fun e he hne => by
        rcases List.mem_append.mp he with he | he
        · exact h.entered e he hne
        · exact absurd (congrArg Prod.fst (List.mem_singleton.mp he)) hne
      sent := fun u x hu hx hph =>
        (h.sent u x hu hx hph).mono List.prefix_rfl (.inr ⟨(t, p), rfl, Ne.symm hu⟩)
      gaveUp := h.gaveUp }
  cases install_inv hn with
  | failed hw =>
      obtain ⟨k', hp', ho', hst⟩ := ho.writepdu hp ⟨rfl, rfl⟩ hw
      have hf := hst.resolve_left fun hl => by cases hl.1
      exact Others.givenUp (x := ⟨p, .failed⟩) (ho'.frame (fun _ => rfl) rfl rfl List.prefix_rfl)
        (hp'.frame rfl rfl rfl rfl) hf.2 rfl rfl
  | complete hw heq =>
      obtain ⟨k', hp', ho', hst⟩ := ho.writepdu hp ⟨rfl, rfl⟩ hw
      have hl := (hst.resolve_right fun hf => by cases hf.1).2
      refine ho'.finishSend hp' (.inl ⟨hl, .inr ?_⟩)
      rw [hl.1, hl.2] at heq
      omega
  | rest hw =>
      obtain ⟨k', hp', ho', hst⟩ := ho.writepdu hp ⟨rfl, rfl⟩ hw
      have hl := (hst.resolve_right fun hf => by cases hf.1).2
      exact Others.waitComplete (ho'.frame id rfl rfl List.prefix_rfl)
        (hp'.frame rfl rfl rfl rfl) (.inl hl)

/-- The head of the loop that waits on `send_wait_`. -/
theorem Writes.waitSlot {r : WriteResult} (h : s.Writes)
    (ht : ∀ y, s.senders t = some y → y.phase = .waitSlot)
    (hn : s.waitSlot t p r = some s') : s'.Writes := by
  have hs : Writes { s with waiters := s.waiters - 1 } := h.frame id rfl rfl rfl rfl
  cases waitSlot_inv hn with
  | park _ _ =>
      have hpark : Writes { s with sendWait := s.sendWait.park t } := h.frame id rfl rfl rfl rfl
      exact hpark.outside ht (.inl rfl)
  | refuse hd => exact hs.outside ht (.inr ⟨rfl, hd⟩)
  | take hd hbuf hn =>
      cases h.slot with
      | free _ hno hall _ =>
          refine (hs.others t).install hno (hall hd) (fun e he het => ?_) hn
          obtain ⟨x, hx, hne⟩ := h.entered e he
          exact hne (ht x (het ▸ hx))
      | writing _ hp _ =>
          obtain ⟨b, hb, -⟩ := hp.buf
          cases hbuf.symm.trans hb
      | givenUp _ _ _ _ hdead => cases hd.symm.trans hdead

/-- On a live connection with a PDU in the slot, its sender waits for the rest. -/
theorem Writes.writing (h : s.Writes) (hd : s.dead = false) (hsz : s.wpdu.sz ≠ 0) :
    ∃ t p k, s.senders t = some ⟨p, .waitComplete⟩ ∧ s.Progress t p k ∧ s.Live p k := by
  cases h.slot with
  | free hwp _ _ _ => exact absurd (congrArg Charbuf.sz hwp) hsz
  | writing ht hp hl => exact ⟨_, _, _, ht, hp, hl⟩
  | givenUp _ _ _ _ hdead => cases hd.symm.trans hdead

/-- A `writepdu` of `write_cb` that does not fail. -/
theorem Writes.writepdu {r : WriteResult} (h : s.Writes) (hd : s.dead = false)
    (hsz : s.wpdu.sz ≠ 0) (hw : s.writepdu r = some (s', true)) :
    s'.Writes ∧ 0 ≤ s'.wpdu.solong := by
  obtain ⟨t, p, k, ht, hp, hl⟩ := h.writing hd hsz
  obtain ⟨k', hp', ho', hst⟩ := (h.others t).writepdu hp hl hw
  obtain ⟨-, hl'⟩ := hst.resolve_right fun hf => by cases hf.1
  have hwrites := ho'.writing hp' hl'
  obtain ⟨b, o, rfl, -⟩ := writepdu_frame hw
  rw [setSender_eq_self (by exact ht)] at hwrites
  refine ⟨hwrites, ?_⟩
  rw [hl'.2]
  exact Int.natCast_nonneg k'

theorem Writes.writeCb {r : WriteResult} {w : Option Nat} (h : s.Writes)
    (hn : s.writeCb r w = some s') : s'.Writes := by
  cases writeCb_inv hn with
  | abort _ | idle _ _ => exact h.frame id rfl rfl rfl rfl
  | rest hd hsz hw _ => exact (h.writepdu hd hsz hw).1
  | complete hd hsz hw _ => exact (h.writepdu hd hsz hw).1.frame id rfl rfl rfl rfl
  | @failed _ c hd hsz hw _ =>
      obtain ⟨t, p, k, ht, hp, hl⟩ := h.writing hd hsz
      obtain ⟨k', hp', ho', hst⟩ := (h.others t).writepdu hp hl hw
      obtain ⟨-, hf⟩ := hst.resolve_left fun hl => by cases hl.1
      obtain ⟨b, o, rfl, -⟩ := writepdu_frame hw
      have hgone := Others.givenUp
        (s := { s.unwatchAll with wpdu := b, out := o, dead := true, sendComplete := c })
        (x := ⟨p, .waitComplete⟩) (ho'.frame (fun _ => rfl) rfl rfl List.prefix_rfl)
        (hp'.frame rfl rfl rfl rfl) hf rfl rfl
      rwa [setSender_eq_self (by exact ht)] at hgone

/-- A sender that has the slot, and what it has written. -/
theorem Writes.progress {x : Sender} (h : s.Writes) (ht : s.senders t = some x)
    (hx : x.holds = true) : ∃ k, s.Progress t x.pdu k ∧
      (x.phase = .waitComplete ∧ s.Live x.pdu k ∨ s.Failed ∧ s.dead = true) := by
  cases h.slot with
  | free _ hno _ _ => simp [hno t x ht] at hx
  | @writing u p k hu hp hl =>
      have htu := hp.others t x ht hx
      subst htu
      rw [ht] at hu
      cases hu
      exact ⟨k, hp, .inl ⟨rfl, hl⟩⟩
  | @givenUp u y k hu hy hp hf hd =>
      have htu := hp.others t x ht hx
      subst htu
      rw [ht] at hu
      cases hu
      exact ⟨k, hp, .inr ⟨hf, hd⟩⟩

theorem writes_step {a : ConnAct} (h : s.Writes) (hn : s.step a = some s') : s'.Writes := by
  cases step_inv hn with
  | send hnew hn =>
      have hs : Writes { s with waiters := s.waiters + 1 } := h.frame id rfl rfl rfl rfl
      refine hs.waitSlot (fun y hy => ?_) hn
      cases hnew.symm.trans hy
  | @resumeSlot t pdu r c s' ht _ hn =>
      have hs : Writes { s with sendWait := c } := h.frame id rfl rfl rfl rfl
      refine hs.waitSlot (fun y hy => ?_) hn
      cases ht.symm.trans hy
      rfl
  | @resumeComplete t pdu c ht _ =>
      have hs : Writes { s with sendComplete := c } := h.frame id rfl rfl rfl rfl
      obtain ⟨k, hp, hst⟩ := hs.progress ht rfl
      exact (hs.others t).waitComplete hp (hst.imp And.right id)
  | unwatch ht =>
      have hs : Writes s.unwatchAll := h.frame id rfl rfl rfl rfl
      obtain ⟨k, hp, ⟨hph, -⟩ | ⟨hf, hd⟩⟩ := hs.progress ht rfl
      · cases hph
      · exact (hs.others _).givenUp hp hf hd rfl
  | removed ht =>
      obtain ⟨k, hp, ⟨hph, -⟩ | hf⟩ := h.progress ht rfl
      · cases hph
      · exact (h.others _).finishSend hp (.inr hf)
  | writeCb hn => exact h.writeCb hn
  | readDead _ | closeDead _ => exact h
  | readFail _ _ | closeconn _ => exact h.frame (fun _ => rfl) rfl rfl rfl rfl
  | closeRemove _ | spuriousSlot _ | spuriousComplete _ => exact h.frame id rfl rfl rfl rfl

theorem step_of_next {a : ConnAct} (hn : s.next a = some s') : s.step a = some s' := by
  unfold next at hn
  split at hn
  · cases hn
  · exact hn

theorem writes_of_reachable (h : connMachine.Reachable s) : s.Writes :=
  h.invariant writes_init fun _ _ _ hs hn => writes_step hs (step_of_next hn)

/-! ## A dead connection -/

/-- A dead connection refuses every sender. -/
theorem waitSlot_of_dead {r : WriteResult} (hd : s.dead = true)
    (hn : s.waitSlot t p r = some s') : s'.dead = true ∧ s'.out = s.out := by
  cases waitSlot_inv hn with
  | park hd' _ | take hd' _ _ => cases hd.symm.trans hd'
  | refuse _ => exact ⟨hd, rfl⟩

/-- Nothing is written on a dead connection, and it stays dead. -/
theorem step_of_dead {a : ConnAct} (hd : s.dead = true) (hn : s.step a = some s') :
    s'.dead = true ∧ s'.out = s.out := by
  cases step_inv hn with
  | send _ hn => exact waitSlot_of_dead (s := { s with waiters := s.waiters + 1 }) hd hn
  | @resumeSlot t pdu r c s' _ _ hn => exact waitSlot_of_dead (s := { s with sendWait := c }) hd hn
  | resumeComplete _ _ =>
      unfold Conn.waitComplete
      rw [if_neg (by simp [hd])]
      exact ⟨hd, rfl⟩
  | writeCb hn =>
      simp only [Conn.writeCb, hd] at hn
      cases hn
      exact ⟨hd, rfl⟩
  | readFail hd' _ | closeconn hd' => cases hd.symm.trans hd'
  | unwatch _ | removed _ | readDead _ | closeDead _ | closeRemove _ | spuriousSlot _
  | spuriousComplete _ => exact ⟨hd, rfl⟩

theorem out_of_reaches (hd : s.dead = true) (h : connMachine.Reaches s s') :
    s'.out = s.out := by
  refine (h.invariant (P := fun s' => s'.dead = true ∧ s'.out = s.out) ⟨hd, rfl⟩ ?_).2
  rintro s₁ s₂ a ⟨hd₁, ho₁⟩ hn
  obtain ⟨hd₂, ho₂⟩ := step_of_dead hd₁ (step_of_next hn)
  exact ⟨hd₂, ho₂.trans ho₁⟩

/-- At every moment the socket has accepted complete PDUs in the order of their
senders and at most one incomplete PDU.  Once a PDU is given up, nothing more is
written.  A `send` that returned true has written its PDU once. -/
theorem writes_atomic (h : connMachine.Reachable s) :
    s.AtomicBytes ∧
    ((s.dead = true ∨ ∃ t x, s.senders t = some x ∧ x.gaveUp = true) →
      ∀ s', connMachine.Reaches s s' → s'.out = s.out) ∧
    ∀ t pdu, s.senders t = some ⟨pdu, .returned true⟩ → s.SentOnce t pdu := by
  have hw := writes_of_reachable h
  refine ⟨hw.slot.atomicBytes, ?_, fun t pdu ht => hw.sent t _ ht rfl⟩
  rintro (hd | ⟨t, x, ht, hg⟩) s' hr
  · exact out_of_reaches hd hr
  · exact out_of_reaches (hw.gaveUp t x ht hg) hr

/-- Thread 1 writes in two parts while thread 2 waits for the slot.  The write of
thread 2 fails in the middle. -/
def twoSenders : List ConnAct :=
  [.send 1 (bytePdu 7) (.wrote 3), .send 2 (bytePdu 8) .again, .writeCb (.wrote 2) (some 1),
    .resumeComplete 1, .resumeSlot 2 (.wrote 4), .writeCb .error (some 2)]

theorem writes_atomic_twoSenders : ∃ s, connMachine.Reachable s ∧
    s.out = [0, 0, 0, 5, 7, 0, 0, 0, 5] ∧ s.AtomicBytes ∧ s.SentOnce 1 (bytePdu 7) := by
  obtain ⟨s, hs, hp⟩ := @Machine.exists_reachable_of_run _ _ connMachine
    (fun s => decide (s.out = [0, 0, 0, 5, 7, 0, 0, 0, 5] ∧
      s.senders 1 = some ⟨bytePdu 7, .returned true⟩)) twoSenders (by decide)
  obtain ⟨hout, ht⟩ := of_decide_eq_true hp
  obtain ⟨hbytes, -, hsent⟩ := writes_atomic hs
  exact ⟨s, hs, hout, hbytes, hsent 1 _ ht⟩

end Conn

end RpcLock.Connection
