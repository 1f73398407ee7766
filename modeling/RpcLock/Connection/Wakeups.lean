import RpcLock.Connection.Writes

/-!
# Blocked senders

Who wakes the threads inside `send`.  A thread that gives the slot back tells
the threads on `send_wait_`.  The thread on `send_complete_` is told by
`write_cb` when its PDU is complete or the write fails, and by `read_cb` when the
read fails.  `closeconn` marks the connection dead and tells nobody.
-/

namespace RpcLock.Connection.Conn

/-- Who is inside the two waits, apart from the threads that are `away`, which
have the mutex. -/
structure Waits (away : Nat → Prop) (s : Conn) : Prop where
  waiters : s.waiters = s.sendWait.threads.length
  nodup : s.sendWait.threads.Nodup
  slot : ∀ t ∈ s.sendWait.threads, ¬ away t ∧ ∃ x, s.senders t = some x ∧ x.phase = .waitSlot
  /-- Nobody is parked in front of a free slot. -/
  busy : s.sendWait.parked ≠ [] → s.wpdu.buf.isSome = true
  complete : ∀ t ∈ s.sendComplete.threads,
    ¬ away t ∧ ∃ x, s.senders t = some x ∧ x.phase = .waitComplete
  one : s.sendComplete.threads.length ≤ 1
  /-- Who waits for the rest of a PDU has the write watch. -/
  armed : ∀ t x, ¬ away t → s.senders t = some x → x.phase = .waitComplete → s.dead = false →
    s.watchWr = true
  closing : s.closing = true → s.dead = true

/-- No wakeup of a thread on `send_complete_` is outstanding: the connection
lives and its PDU is incomplete. -/
def Pending (s : Conn) : Prop :=
  s.sendComplete.parked ≠ [] → s.dead = false ∧ 0 ≤ s.wpdu.solong ∧ s.wpdu.solong < s.wpdu.sz

/-- No sender is left waiting. -/
structure Awake (s : Conn) : Prop where
  complete : ∀ t ∈ s.sendComplete.parked,
    s.dead = false ∧ s.wpdu.solong < s.wpdu.sz ∧ s.watchWr = true
  slot : ∀ t ∈ s.sendWait.parked, ∃ u x, u ≠ t ∧ s.senders u = some x ∧ x.holds = true

/-- The step is not a `closeconn` that kills the connection under a thread that
is parked on `send_complete_`. -/
def ClosesNobody (s : Conn) (a : ConnAct) : Prop :=
  a = .closeconn → s.dead = false → s.sendComplete.parked = []

instance (s : Conn) (a : ConnAct) : Decidable (s.ClosesNobody a) :=
  inferInstanceAs (Decidable (_ → _))

variable {s s' : Conn} {t : Nat} {p : Pdu} {away : Nat → Prop} {r : WriteResult} {w : Option Nat}

theorem waits_init : Waits (fun _ => False) init where
  waiters := rfl
  nodup := List.nodup_nil
  slot := by simp [init]
  busy := by simp [init, CondVar.empty]
  complete := by simp [init]
  one := Nat.zero_le _
  armed := by simp [init]
  closing := by simp [init]

/-! ## Inside a critical section -/

/-- Steps that leave the waits and the threads alone. -/
theorem Waits.frame (h : s.Waits away) (hw : s'.waiters = s.waiters)
    (hsw : s'.sendWait = s.sendWait) (hsc : s'.sendComplete = s.sendComplete)
    (hs : s'.senders = s.senders) (hbuf : s.wpdu.buf.isSome = true → s'.wpdu.buf.isSome = true)
    (hdead : s'.dead = false → s.dead = false ∧ (s.watchWr = true → s'.watchWr = true))
    (hcl : s'.closing = true → s'.dead = true) : s'.Waits away where
  waiters := by rw [hw, hsw, h.waiters]
  nodup := by rw [hsw]; exact h.nodup
  slot := by rw [hsw, hs]; exact h.slot
  busy := by
    rw [hsw]
    exact fun hp => hbuf (h.busy hp)
  complete := by rw [hsc, hs]; exact h.complete
  one := by rw [hsc]; exact h.one
  armed t x ht hx hph hd := by
    rw [hs] at hx
    obtain ⟨hd₀, harm⟩ := hdead hd
    exact harm (h.armed t x ht hx hph hd₀)
  closing := hcl

/-- A thread comes back with its new entry, outside both waits. -/
theorem Waits.back (h : s.Waits (· = t)) {x : Sender}
    (hx : x.phase = .waitComplete → s.dead = false → s.watchWr = true) :
    (s.setSender t x).Waits fun _ => False where
  waiters := h.waiters
  nodup := h.nodup
  slot u hu := by
    obtain ⟨hut, y, hy, hph⟩ := h.slot u hu
    exact ⟨id, y, (setSender_senders_ne s x hut).trans hy, hph⟩
  busy := h.busy
  complete u hu := by
    obtain ⟨hut, y, hy, hph⟩ := h.complete u hu
    exact ⟨id, y, (setSender_senders_ne s x hut).trans hy, hph⟩
  one := h.one
  armed u y _ hy hph hd := by
    rcases setSender_senders_cases hy with ⟨-, rfl⟩ | ⟨hut, hy⟩
    · exact hx hph hd
    · exact h.armed u y hut hy hph hd
  closing := h.closing

/-- A thread goes into the wait for the slot. -/
theorem Waits.parkSlot (h : s.Waits (· = t)) (hbuf : s.wpdu.buf.isSome = true) :
    ({ s with waiters := s.waiters + 1, sendWait := s.sendWait.park t }.setSender t
      ⟨p, .waitSlot⟩).Waits fun _ => False where
  waiters := congrArg (· + 1) h.waiters
  nodup := List.nodup_cons.mpr ⟨fun ht => (h.slot t ht).1 rfl, h.nodup⟩
  slot u hu := by
    refine ⟨id, ?_⟩
    rcases List.mem_cons.mp hu with rfl | hu
    · exact ⟨_, setSender_senders_self _ _ _, rfl⟩
    · obtain ⟨hut, y, hy, hph⟩ := h.slot u hu
      exact ⟨y, (setSender_senders_ne _ _ hut).trans hy, hph⟩
  busy _ := hbuf
  complete u hu := by
    obtain ⟨hut, y, hy, hph⟩ := h.complete u hu
    exact ⟨id, y, (setSender_senders_ne _ _ hut).trans hy, hph⟩
  one := h.one
  armed u y _ hy hph hd := by
    rcases setSender_senders_cases hy with ⟨-, rfl⟩ | ⟨hut, hy⟩
    · cases hph
    · exact h.armed u y hut hy hph hd
  closing := h.closing

/-- A thread goes into the wait for the rest of its PDU, where nobody else is. -/
theorem Waits.parkComplete (h : s.Waits (· = t)) (hnil : s.sendComplete.threads = [])
    (hwr : s.watchWr = true) :
    ({ s with sendComplete := s.sendComplete.park t }.setSender t
      ⟨p, .waitComplete⟩).Waits fun _ => False := by
  have hthreads : (s.sendComplete.park t).threads = [t] := by rw [CondVar.threads_park, hnil]
  exact
    { waiters := h.waiters
      nodup := h.nodup
      slot := fun u hu => by
        obtain ⟨hut, y, hy, hph⟩ := h.slot u hu
        exact ⟨id, y, (setSender_senders_ne _ _ hut).trans hy, hph⟩
      busy := h.busy
      complete := fun u hu => by
        have hu : u ∈ (s.sendComplete.park t).threads := hu
        rw [hthreads] at hu
        rw [List.mem_singleton.mp hu]
        exact ⟨id, _, setSender_senders_self _ _ _, rfl⟩
      one := hthreads ▸ le_rfl
      armed := fun _ _ _ _ _ _ => hwr
      closing := h.closing }

/-- Whoever gives the slot back wakes the threads in front of it. -/
theorem Waits.releaseSlot (h : s.Waits away) : s.releaseSlot.Waits away := by
  have hthreads : s.releaseSlot.sendWait.threads = s.sendWait.threads := by
    unfold Conn.releaseSlot
    dsimp only
    split <;> simp [CondVar.threads, CondVar.broadcast]
  exact
    { waiters := by rw [hthreads]; exact h.waiters
      nodup := by rw [hthreads]; exact h.nodup
      slot := by rw [hthreads]; exact h.slot
      busy := by
        intro hp
        exfalso
        unfold Conn.releaseSlot at hp
        dsimp only at hp
        split at hp
        · exact hp rfl
        · rename_i h0
          have hlen := h.waiters
          have hparked := List.length_pos_of_ne_nil hp
          rw [CondVar.threads, List.length_append] at hlen
          omega
      complete := h.complete
      one := h.one
      armed := h.armed
      closing := h.closing }

theorem Waits.finishSend (h : s.Waits (· = t)) :
    (s.finishSend t p).Waits fun _ => False :=
  h.releaseSlot.back fun hph => by cases hph

/-- The head of the loop that waits on `send_complete_`. -/
theorem Waits.waitComplete (h : s.Waits (· = t)) (hnil : s.sendComplete.threads = [])
    (hwr : s.dead = false → s.watchWr = true) :
    (s.waitComplete t p).Waits (fun _ => False) ∧ (s.waitComplete t p).Pending := by
  unfold Conn.waitComplete
  split
  · rename_i hc
    exact ⟨h.parkComplete hnil (hwr hc.1), fun _ => hc⟩
  · refine ⟨h.finishSend, fun hp => absurd ?_ hp⟩
    have hparked : s.sendComplete.parked = [] := (List.append_eq_nil_iff.mp hnil).1
    exact hparked

/-- A sender takes the free slot. -/
theorem Waits.install (h : s.Waits (· = t)) (hnil : s.sendComplete.threads = [])
    (hn : s.install t p r = some s') : s'.Waits (fun _ => False) ∧ s'.Pending := by
  have hparked : s.sendComplete.parked = [] := (List.append_eq_nil_iff.mp hnil).1
  have h₁ : (s.taken t p).Waits (· = t) :=
    h.frame rfl rfl rfl rfl (fun _ => rfl) (fun hd => ⟨hd, id⟩) h.closing
  cases install_inv hn with
  | failed hw =>
      obtain ⟨b, o, rfl, hbuf⟩ := writepdu_frame hw
      have h₂ : Waits (· = t) { s.taken t p with wpdu := b, out := o, dead := true } :=
        h₁.frame rfl rfl rfl rfl hbuf (fun hd => by cases hd) fun _ => rfl
      exact ⟨h₂.back fun hph => (by cases hph), fun hp => absurd hparked hp⟩
  | complete hw _ =>
      obtain ⟨b, o, rfl, hbuf⟩ := writepdu_frame hw
      have h₂ : Waits (· = t) { s.taken t p with wpdu := b, out := o } :=
        h₁.frame rfl rfl rfl rfl hbuf (fun hd => ⟨hd, id⟩) h₁.closing
      exact ⟨h₂.finishSend, fun hp => absurd hparked hp⟩
  | rest hw =>
      obtain ⟨b, o, rfl, hbuf⟩ := writepdu_frame hw
      have h₂ : Waits (· = t) { s.taken t p with wpdu := b, out := o, watchWr := true } :=
        h₁.frame rfl rfl rfl rfl hbuf (fun hd => ⟨hd, fun _ => rfl⟩) h₁.closing
      exact h₂.waitComplete hnil fun _ => rfl

/-- The head of the loop that waits on `send_wait_`.  The thread is counted in
`waiters_` and in no wait. -/
theorem Waits.waitSlot (h : Waits (· = t) { s with waiters := s.waiters - 1 })
    (hpos : 0 < s.waiters) (hpend : s.Pending)
    (hfree : s.dead = false → s.wpdu.buf = none → s.sendComplete.threads = [])
    (hn : s.waitSlot t p r = some s') : s'.Waits (fun _ => False) ∧ s'.Pending := by
  cases waitSlot_inv hn with
  | park _ hbuf =>
      have hpark := h.parkSlot (p := p) hbuf
      simp only [Nat.sub_add_cancel hpos] at hpark
      exact ⟨hpark, hpend⟩
  | refuse _ => exact ⟨h.back fun hph => (by cases hph), hpend⟩
  | take hd hbuf hn => exact h.install (hfree hd hbuf) hn

/-! ## Signals -/

/-- A signal wakes the one thread that may be parked. -/
theorem parked_of_signal {c c' : CondVar Nat} (hone : c.threads.length ≤ 1)
    (h : c.signal w = some c') : c'.parked = [] := by
  by_contra hp
  obtain ⟨-, hwoken⟩ := CondVar.length_woken_signal h hp
  have hlen := (CondVar.threads_signal h).length_eq
  have hpos := List.length_pos_of_ne_nil hp
  simp only [CondVar.threads, List.length_append] at hlen hone
  omega

/-- A step that moves a thread inside a wait. -/
theorem Waits.moved (h : s.Waits away) {c d : CondVar Nat} (hc : c.threads.Perm s.sendWait.threads)
    (hcp : c.parked ≠ [] → s.sendWait.parked ≠ []) (hd : d.threads.Perm s.sendComplete.threads) :
    Waits away { s with sendWait := c, sendComplete := d } where
  waiters := h.waiters.trans hc.length_eq.symm
  nodup := hc.nodup_iff.mpr h.nodup
  slot u hu := h.slot u (hc.mem_iff.mp hu)
  busy hp := h.busy (hcp hp)
  complete u hu := h.complete u (hd.mem_iff.mp hu)
  one := hd.length_eq.trans_le h.one
  armed := h.armed
  closing := h.closing

/-- The connection dies and the thread on `send_complete_` is told. -/
theorem Waits.die (h : s.Waits away) {c : CondVar Nat} (hc : s.sendComplete.signal w = some c) :
    Waits away { s.unwatchAll with dead := true, sendComplete := c } ∧
      Pending { s.unwatchAll with dead := true, sendComplete := c } := by
  have hm : Waits away { s with sendWait := s.sendWait, sendComplete := c } :=
    h.moved (.refl _) id (CondVar.threads_signal hc)
  exact ⟨hm.frame rfl rfl rfl rfl id (fun hd => by cases hd) fun _ => rfl,
    fun hp => absurd (parked_of_signal h.one hc) hp⟩

/-! ## A thread takes the mutex -/

theorem Waits.leave (h : s.Waits fun _ => False)
    (ht : ∀ x, s.senders t = some x → x.phase ≠ .waitSlot ∧ x.phase ≠ .waitComplete) :
    s.Waits (· = t) where
  waiters := h.waiters
  nodup := h.nodup
  slot u hu := by
    obtain ⟨-, x, hx, hph⟩ := h.slot u hu
    refine ⟨?_, x, hx, hph⟩
    rintro rfl
    exact (ht x hx).1 hph
  busy := h.busy
  complete u hu := by
    obtain ⟨-, x, hx, hph⟩ := h.complete u hu
    refine ⟨?_, x, hx, hph⟩
    rintro rfl
    exact (ht x hx).2 hph
  one := h.one
  armed u x _ := h.armed u x id
  closing := h.closing

theorem Waits.leaveSlot (h : s.Waits fun _ => False) {c : CondVar Nat}
    (ht : s.senders t = some ⟨p, .waitSlot⟩) (hc : s.sendWait.resume t = some c) :
    Waits (· = t) { s with sendWait := c, waiters := s.waiters - 1 } ∧ 0 < s.waiters := by
  have hperm := CondVar.threads_resume hc
  have hlen := hperm.length_eq
  have hnd := hperm.nodup_iff.mp h.nodup
  have hw := h.waiters
  rw [List.length_cons] at hlen
  obtain ⟨-, rfl⟩ := CondVar.resume_inv hc
  refine ⟨?_, by omega⟩
  exact
    { waiters := by dsimp only; omega
      nodup := (List.nodup_cons.mp hnd).2
      slot := fun u hu => by
        obtain ⟨-, x, hx, hph⟩ := h.slot u (hperm.mem_iff.mpr (List.mem_cons_of_mem t hu))
        refine ⟨?_, x, hx, hph⟩
        rintro rfl
        exact (List.nodup_cons.mp hnd).1 hu
      busy := h.busy
      complete := fun u hu => by
        obtain ⟨-, x, hx, hph⟩ := h.complete u hu
        refine ⟨?_, x, hx, hph⟩
        rintro rfl
        rw [ht] at hx
        cases hx
        cases hph
      one := h.one
      armed := fun u x _ => h.armed u x id
      closing := h.closing }

theorem Waits.leaveComplete (h : s.Waits fun _ => False) {c : CondVar Nat}
    (ht : s.senders t = some ⟨p, .waitComplete⟩) (hc : s.sendComplete.resume t = some c) :
    Waits (· = t) { s with sendComplete := c } ∧ c.threads = [] := by
  have hlen := (CondVar.threads_resume hc).length_eq
  have hone := h.one
  rw [List.length_cons] at hlen
  have hnil : c.threads = [] := List.length_eq_zero_iff.mp (by omega)
  refine ⟨?_, hnil⟩
  exact
    { waiters := h.waiters
      nodup := h.nodup
      slot := fun u hu => by
        obtain ⟨-, x, hx, hph⟩ := h.slot u hu
        refine ⟨?_, x, hx, hph⟩
        rintro rfl
        rw [ht] at hx
        cases hx
        cases hph
      busy := h.busy
      complete := fun u hu => by
        dsimp only at hu
        rw [hnil] at hu
        cases hu
      one := by
        dsimp only
        rw [hnil]
        exact Nat.zero_le _
      armed := fun u x _ => h.armed u x id
      closing := h.closing }

/-- Nobody waits for the rest of a PDU while the slot is free. -/
theorem Waits.complete_nil (h : s.Waits away) (hw : s.Writes) (hbuf : s.wpdu.buf = none) :
    s.sendComplete.threads = [] := by
  refine List.eq_nil_iff_forall_not_mem.mpr fun t ht => ?_
  obtain ⟨-, x, hx, hph⟩ := h.complete t ht
  obtain ⟨k, hp, -⟩ := hw.progress hx (by rw [Sender.holds, hph])
  obtain ⟨b, hb, -⟩ := hp.buf
  rw [hbuf] at hb
  cases hb

/-! ## The steps -/

/-- The watch goes only when nobody waits for the rest of a PDU. -/
theorem Waits.unwatchWr (h : s.Waits away) (hw : s.Writes) (hd : s.dead = false)
    (hsz : s.wpdu.sz = 0) : Waits away { s with watchWr := false } where
  waiters := h.waiters
  nodup := h.nodup
  slot := h.slot
  busy := h.busy
  complete := h.complete
  one := h.one
  armed u x _ hx hph _ := by
    obtain ⟨k, -, ⟨-, hl, -⟩ | ⟨-, hd'⟩⟩ := hw.progress hx (by rw [Sender.holds, hph])
    · have hpos := x.pdu.size_gt
      have hl : s.wpdu.sz = x.pdu.bytes.length := hl
      omega
    · cases hd.symm.trans hd'
  closing := h.closing

theorem Waits.writeCb (h : s.Waits fun _ => False) (hw : s.Writes) (hp : s.Pending)
    (hn : s.writeCb r w = some s') : s'.Waits (fun _ => False) ∧ s'.Pending := by
  have hframe : ∀ {b o}, (s.wpdu.buf.isSome = true → b.buf.isSome = true) →
      Waits (fun _ => False) { s with wpdu := b, out := o } := fun hbuf =>
    h.frame rfl rfl rfl rfl hbuf (fun hd => ⟨hd, id⟩) h.closing
  cases writeCb_inv hn with
  | abort _ => exact ⟨h.frame rfl rfl rfl rfl id (fun hd => ⟨hd, id⟩) h.closing, hp⟩
  | idle hd hsz => exact ⟨h.unwatchWr hw hd hsz, hp⟩
  | failed _ _ hwr hc =>
      obtain ⟨b, o, rfl, hbuf⟩ := writepdu_frame hwr
      exact (hframe hbuf).die hc
  | rest hd hsz hwr hlt =>
      obtain ⟨-, hle⟩ := hw.writepdu hd hsz hwr
      obtain ⟨b, o, rfl, hbuf⟩ := writepdu_frame hwr
      exact ⟨hframe hbuf, fun _ => ⟨hd, hle, hlt⟩⟩
  | complete _ _ hwr hc =>
      obtain ⟨b, o, rfl, hbuf⟩ := writepdu_frame hwr
      exact ⟨(hframe hbuf).moved (.refl _) id (CondVar.threads_signal hc),
        fun hpk => absurd (parked_of_signal h.one hc) hpk⟩

theorem waits_step {a : ConnAct} (h : s.Waits fun _ => False) (hw : s.Writes) (hp : s.Pending)
    (hg : s.ClosesNobody a) (hn : s.step a = some s') :
    s'.Waits (fun _ => False) ∧ s'.Pending := by
  cases step_inv hn with
  | send hnew hn =>
      have ha : s.Waits (· = _) := h.leave fun x hx => by cases hnew.symm.trans hx
      exact Waits.waitSlot (s := { s with waiters := s.waiters + 1 }) ha (Nat.succ_pos _) hp
        (fun _ hbuf => h.complete_nil hw hbuf) hn
  | @resumeSlot t pdu r c s' ht hc hn =>
      obtain ⟨ha, hpos⟩ := h.leaveSlot ht hc
      exact Waits.waitSlot (s := { s with sendWait := c }) ha hpos hp
        (fun _ hbuf => h.complete_nil hw hbuf) hn
  | resumeComplete ht hc =>
      obtain ⟨ha, hnil⟩ := h.leaveComplete ht hc
      exact ha.waitComplete hnil fun hd => h.armed _ _ id ht rfl hd
  | @unwatch t pdu ht =>
      obtain ⟨k, -, ⟨hph, -⟩ | ⟨-, hd⟩⟩ := hw.progress ht rfl
      · cases hph
      have ha : s.Waits (· = t) := h.leave fun x hx => by
        cases ht.symm.trans hx
        simp
      have ha' : s.unwatchAll.Waits (· = t) :=
        ha.frame rfl rfl rfl rfl id (fun hd' => by cases hd.symm.trans hd') h.closing
      exact ⟨ha'.back fun hph => (by cases hph), hp⟩
  | @removed t pdu ht =>
      obtain ⟨k, -, ⟨hph, -⟩ | ⟨-, hd⟩⟩ := hw.progress ht rfl
      · cases hph
      have ha : s.Waits (· = t) := h.leave fun x hx => by
        cases ht.symm.trans hx
        simp
      exact ⟨ha.finishSend, fun hpk => by cases hd.symm.trans (hp hpk).1⟩
  | writeCb hn => exact h.writeCb hw hp hn
  | readDead _ | closeDead _ => exact ⟨h, hp⟩
  | readFail _ hc => exact h.die hc
  | closeconn hd =>
      exact ⟨h.frame rfl rfl rfl rfl id (fun hd' => by cases hd') fun _ => rfl,
        fun hpk => absurd (hg rfl hd) hpk⟩
  | closeRemove hcl =>
      have hd := h.closing hcl
      exact ⟨h.frame rfl rfl rfl rfl id (fun hd' => by cases hd.symm.trans hd')
        fun hcl' => (by cases hcl'), hp⟩
  | spuriousSlot hc =>
      exact ⟨h.moved (CondVar.threads_wake hc)
        (fun _ => List.ne_nil_of_mem (CondVar.wake_inv hc).1) (.refl _), hp⟩
  | spuriousComplete hc =>
      exact ⟨h.moved (.refl _) id (CondVar.threads_wake hc),
        fun _ => hp (List.ne_nil_of_mem (CondVar.wake_inv hc).1)⟩

/-! ## Runs -/

theorem Waits.awake (h : s.Waits fun _ => False) (hw : s.Writes) (hp : s.Pending) : s.Awake where
  complete t ht := by
    obtain ⟨hd, -, hlt⟩ := hp (List.ne_nil_of_mem ht)
    obtain ⟨-, x, hx, hph⟩ := h.complete t (List.mem_append_left _ ht)
    exact ⟨hd, hlt, h.armed t x id hx hph hd⟩
  slot t ht := by
    have hbuf := h.busy (List.ne_nil_of_mem ht)
    obtain ⟨-, x, hx, hph⟩ := h.slot t (List.mem_append_left _ ht)
    have hne : ∀ {u y}, s.senders u = some y → y.holds = true → u ≠ t := by
      rintro u y hu hy rfl
      rw [hx] at hu
      cases hu
      simp [Sender.holds, hph] at hy
    cases hw.slot with
    | free hwp _ _ _ => simp [hwp, Charbuf.empty] at hbuf
    | writing hu _ _ => exact ⟨_, _, hne hu rfl, hu, rfl⟩
    | givenUp hu hy _ _ _ => exact ⟨_, _, hne hu hy, hu, hy⟩

theorem waits_of_reachedVia (h : connMachine.ReachedVia ClosesNobody s) :
    s.Writes ∧ s.Waits (fun _ => False) ∧ s.Pending := by
  refine h.invariant (P := fun s => s.Writes ∧ s.Waits (fun _ => False) ∧ s.Pending)
    ⟨writes_init, waits_init, fun hp => absurd rfl hp⟩ ?_
  rintro s s' a ⟨hw, hs, hp⟩ hg hn
  exact ⟨writes_step hw (step_of_next hn), waits_step hs hw hp hg (step_of_next hn)⟩

/-- In every run in which no `closeconn` kills the connection under a parked
thread, no sender is left waiting.  From each state of such a run the next step
keeps that exactly if it is not such a `closeconn`. -/
theorem senders_woken (h : connMachine.ReachedVia ClosesNobody s) :
    s.Awake ∧ ∀ a s', connMachine.next s a = some s' → (s'.Awake ↔ s.ClosesNobody a) := by
  obtain ⟨hw, hs, hp⟩ := waits_of_reachedVia h
  refine ⟨hs.awake hw hp, fun a s' hn => ⟨?_, fun hg => ?_⟩⟩
  · rintro ha rfl hd
    by_contra hpk
    obtain ⟨t, ht⟩ := List.exists_mem_of_ne_nil _ hpk
    have hstep : s.closeconn = s' := Option.some.inj (step_of_next hn)
    have hs' : s' = { s with dead := true, closing := true } := by
      rw [← hstep, Conn.closeconn, hd]
      rfl
    rw [hs'] at ha
    have halive : true = false := (ha.complete t ht).1
    cases halive
  · obtain ⟨hs', hp'⟩ := waits_step hs hw hp hg (step_of_next hn)
    exact hs'.awake (writes_step hw (step_of_next hn)) hp'

/-- A partial write, and another thread in front of the slot. -/
def parkedSenders : List ConnAct := [.send 1 (bytePdu 7) (.wrote 3), .send 2 (bytePdu 8) .again]

theorem senders_woken_parkedSenders : ∃ s, connMachine.ReachedVia ClosesNobody s ∧
    s.sendComplete.parked = [1] ∧ s.sendWait.parked = [2] ∧ s.Awake := by
  obtain ⟨s, hs, hp⟩ := @Machine.exists_reachedVia_of_run _ _ connMachine ClosesNobody _
    (fun s => decide (s.sendComplete.parked = [1] ∧ s.sendWait.parked = [2])) parkedSenders
    (by decide)
  obtain ⟨hc, hw⟩ := of_decide_eq_true hp
  exact ⟨s, hs, hc, hw, (senders_woken hs).1⟩

/-- `closeconn` behind a partial write: nobody is woken, and the descriptor is
not watched any more. -/
theorem sender_left_waiting : ∃ s, connMachine.Reachable s ∧ s.sendComplete.parked = [1] ∧
    s.dead = true ∧ s.watchWr = false ∧ ¬ s.Awake := by
  obtain ⟨s, hs, hp⟩ := @Machine.exists_reachable_of_run _ _ connMachine
    (fun s => decide (s.sendComplete.parked = [1] ∧ s.dead = true ∧ s.watchWr = false))
    (parkedSenders ++ [.closeconn, .closeRemove]) (by decide)
  obtain ⟨hc, hd, hwr⟩ := of_decide_eq_true hp
  refine ⟨s, hs, hc, hd, hwr, fun ha => ?_⟩
  have := (ha.complete 1 (by rw [hc]; exact List.mem_singleton_self 1)).1
  rw [hd] at this
  cases this

end RpcLock.Connection.Conn
