import RpcLock.Connection.Wakeups

/-!
# The assertion of `write_cb`

`write_cb` begins with `VERIFY(!dead_)`.  The poll thread calls it for a
descriptor that was in the write set when `select` got its copy.  A failed read
or write removes the callbacks before it marks the connection dead.  `closeconn`
and a failed `send` mark the connection dead first and call `block_remove_fd`
after they have released the mutex.

`PolledConn` is a connection and its poll thread.  A round of `wait_loop` copies
the sets, selects, and looks at `callbacks_[fd_]` before each callback.  A
`block_remove_fd` may return at any moment after it has stopped the watch.
-/

namespace RpcLock.Connection

/-- What the poll thread has of `fd_` in its round. -/
inductive Round where
  | idle
  /-- In `select`, with the bits of `fd_` in the copies. -/
  | selecting (rd wr : Bool)
  /-- In the two loops, with the callbacks that are due. -/
  | due (rd wr : Bool)
  /-- About to enter the critical section of `read_cb`. -/
  | inRead (wr : Bool)
  | inWrite
deriving DecidableEq, Repr

/-- The round has or may come to a `write_cb`. -/
def Round.hasWrite : Round → Bool
  | .idle => false
  | .selecting _ wr | .due _ wr | .inRead wr => wr
  | .inWrite => true

/-- A connection and its poll thread. -/
structure PolledConn where
  conn : Conn
  /-- `callbacks_[fd_]` is set. -/
  callback : Bool
  /-- The calls of `block_remove_fd` that have not returned. -/
  removing : Nat
  round : Round

inductive PolledConnAct where
  /-- A critical section of another thread. -/
  | other (a : ConnAct)
  /-- A `block_remove_fd` returns. -/
  | removed
  /-- `select` gets its copy of the sets. -/
  | copy
  | select (rd wr : Bool)
  /-- The test of `callbacks_[fd_]`, or the end of the round. -/
  | check
  /-- A `read_cb` that does not fail. -/
  | readOk
  | readFail (w : Option Nat)
  | writeCb (r : WriteResult) (w : Option Nat)
deriving DecidableEq, Repr

/-- The critical sections of the poll thread. -/
def ConnAct.ofPoll : ConnAct → Bool
  | .writeCb _ _ | .readFail _ => true
  | _ => false

/-- The step begins a `block_remove_fd`. -/
def ConnAct.removes : ConnAct → Bool
  | .unwatch _ | .closeRemove => true
  | _ => false

namespace PolledConn

def init : PolledConn := ⟨.init, true, 0, .idle⟩

/-- A step of another thread.  `add_callback` sets `callbacks_[fd_]`, which is set
as long as the connection lives. -/
def other (s : PolledConn) (a : ConnAct) : Option PolledConn :=
  (s.conn.next a).map fun c =>
    { s with
      conn := c
      callback := s.callback || (c.watchWr && !s.conn.watchWr)
      removing := if a.removes then s.removing + 1 else s.removing }

/-- `read_cb` when `readpdu` fails.  `del_callback` leaves no callback. -/
def readFail (s : PolledConn) (wr : Bool) (w : Option Nat) : Option PolledConn :=
  (s.conn.next (.readFail w)).map fun c =>
    { s with conn := c, callback := s.conn.dead && s.callback, round := .due false wr }

/-- `callbacks_[fd_]` after `write_cb`, whose critical section leads to `c`. -/
def callbackAfter (s : PolledConn) (c : Conn) : Bool :=
  if s.conn.dead then s.callback
  -- del_callback(fd_, CB_WRONLY)
  else if s.conn.wpdu.sz = 0 then s.callback && s.conn.watchRd
  -- del_callback(fd_, CB_RDWR) if writepdu failed
  else !c.dead && s.callback

def writeCb (s : PolledConn) (r : WriteResult) (w : Option Nat) : Option PolledConn :=
  (s.conn.next (.writeCb r w)).map fun c =>
    { s with conn := c, callback := s.callbackAfter c, round := .due false false }

/-- The test of `callbacks_[fd_]` before each callback that is due. -/
def check (s : PolledConn) : Bool → Bool → PolledConn
  | true, wr => { s with round := if s.callback then .inRead wr else .due false wr }
  | false, true => { s with round := if s.callback then .inWrite else .due false false }
  | false, false => { s with round := .idle }

def step (s : PolledConn) : PolledConnAct → Option PolledConn
  | .other a => if a.ofPoll then none else s.other a
  | .removed =>
      if 0 < s.removing then some { s with callback := false, removing := s.removing - 1 }
      else none
  | .copy =>
      if s.round = .idle then some { s with round := .selecting s.conn.watchRd s.conn.watchWr }
      else none
  | .select rd wr =>
      match s.round with
      | .selecting r w => if rd ≤ r ∧ wr ≤ w then some { s with round := .due rd wr } else none
      | _ => none
  | .check =>
      match s.round with
      | .due rd wr => some (s.check rd wr)
      | _ => none
  | .readOk =>
      match s.round with
      | .inRead wr => some { s with round := .due false wr }
      | _ => none
  | .readFail w =>
      match s.round with
      | .inRead wr => s.readFail wr w
      | _ => none
  | .writeCb r w =>
      match s.round with
      | .inWrite => s.writeCb r w
      | _ => none

def next (s : PolledConn) (a : PolledConnAct) : Option PolledConn :=
  if s.conn.aborted then none else s.step a

end PolledConn

/-- A connection on its poll thread, under any number of senders. -/
def polledConnMachine : Machine PolledConn PolledConnAct where
  init := .init
  next := PolledConn.next

/-! ## The flags under the other threads -/

namespace Conn

variable {s s' : Conn} {a : ConnAct} {t : Nat} {p : Pdu} {r : WriteResult}

/-- The step marks the connection dead: a `closeconn`, or a `send` that gets the
slot and whose write fails. -/
def Kills (s : Conn) : ConnAct → Prop
  | .closeconn => s.dead = false
  | .send _ _ r | .resumeSlot _ r => s.dead = false ∧ s.wpdu.buf = none ∧ r = .error
  | _ => False

instance (s : Conn) : (a : ConnAct) → Decidable (s.Kills a)
  | .closeconn => inferInstanceAs (Decidable (s.dead = false))
  | .send _ _ r | .resumeSlot _ r =>
      inferInstanceAs (Decidable (s.dead = false ∧ s.wpdu.buf = none ∧ r = .error))
  | .resumeComplete _ | .unwatch _ | .removed _ | .writeCb _ _ | .readFail _ | .closeRemove
  | .spuriousSlot _ | .spuriousComplete _ => inferInstanceAs (Decidable False)

theorem alive_of_kills (h : s.Kills a) : s.dead = false := by
  cases a with
  | closeconn => exact h
  | send _ _ _ | resumeSlot _ _ => exact h.1
  | _ => cases h

/-- What a step does to `dead_` and to the watch of `fd_`. -/
inductive Flags (s : Conn) (a : ConnAct) (s' : Conn) : Prop where
  | same : ¬ s.Kills a → a.removes = false → s'.dead = s.dead → s'.watchRd = s.watchRd →
      s'.watchWr = s.watchWr → Flags s a s'
  | arm : ¬ s.Kills a → a.removes = false → s.dead = false → s'.dead = false →
      s'.watchRd = s.watchRd → s'.watchWr = true → Flags s a s'
  | kill : s.Kills a → a.removes = false → s'.dead = true → s'.watchRd = s.watchRd →
      s'.watchWr = s.watchWr → Flags s a s'
  | remove : ¬ s.Kills a → a.removes = true → s'.dead = s.dead → s'.watchRd = false →
      s'.watchWr = false → Flags s a s'

/-- What a step of another thread leaves alone, and its effect on the flags. -/
structure Touch (s : Conn) (a : ConnAct) (s' : Conn) : Prop where
  aborted : s'.aborted = s.aborted
  closing : s'.closing = true → s.closing = true ∨ s'.dead = true
  flags : s.Flags a s'

/-- The end of `send`, or its wait for the rest of the PDU. -/
theorem waitComplete_flags (s : Conn) (t : Nat) (p : Pdu) :
    (s.waitComplete t p).aborted = s.aborted ∧ (s.waitComplete t p).closing = s.closing ∧
      (s.waitComplete t p).dead = s.dead ∧ (s.waitComplete t p).watchRd = s.watchRd ∧
        (s.waitComplete t p).watchWr = s.watchWr := by
  unfold waitComplete
  split <;> exact ⟨rfl, rfl, rfl, rfl, rfl⟩

/-- A fresh PDU is not complete, so its `writepdu` fails exactly if `write` does. -/
theorem writepdu_fails {ok : Bool} (hne : s.wpdu.solong ≠ s.wpdu.sz)
    (h : s.writepdu r = some (s', ok)) : ok = false ↔ r = .error := by
  unfold writepdu at h
  dsimp only at h
  rw [if_neg hne] at h
  cases r with
  | wrote n =>
      simp only at h
      split at h
      · cases h
        simp
      · cases h
  | again =>
      cases h
      simp
  | error =>
      cases h
      simp

/-- A sender that takes the slot dies of a failed write, and otherwise may arm
the write watch. -/
theorem install_flags (h : s.install t p r = some s') :
    s'.aborted = s.aborted ∧ s'.closing = s.closing ∧ s'.watchRd = s.watchRd ∧
      (r = .error ∧ s'.dead = true ∧ s'.watchWr = s.watchWr ∨
        r ≠ .error ∧ s'.dead = s.dead ∧ (s'.watchWr = s.watchWr ∨ s'.watchWr = true)) := by
  have hne : (s.taken t p).wpdu.solong ≠ (s.taken t p).wpdu.sz := by
    have hsz := p.size_gt
    simp only [taken, Pdu.size]
    omega
  cases install_inv h with
  | failed hw =>
      have hr := (writepdu_fails hne hw).mp rfl
      obtain ⟨b, o, rfl, -⟩ := writepdu_frame hw
      exact ⟨rfl, rfl, rfl, .inl ⟨hr, rfl, rfl⟩⟩
  | complete hw _ =>
      have hr : r ≠ .error := fun hr => by cases (writepdu_fails hne hw).mpr hr
      obtain ⟨b, o, rfl, -⟩ := writepdu_frame hw
      exact ⟨rfl, rfl, rfl, .inr ⟨hr, rfl, .inl rfl⟩⟩
  | rest hw =>
      have hr : r ≠ .error := fun hr => by cases (writepdu_fails hne hw).mpr hr
      obtain ⟨b, o, rfl, -⟩ := writepdu_frame hw
      obtain ⟨hab, hcl, hd, hrd, hwr⟩ :=
        waitComplete_flags { s.taken t p with wpdu := b, out := o, watchWr := true } t p
      exact ⟨hab, hcl, hrd, .inr ⟨hr, hd, .inr hwr⟩⟩

/-- The head of the loop that waits on `send_wait_`. -/
theorem waitSlot_flags (h : s.waitSlot t p r = some s')
    (hk : s.Kills a ↔ s.dead = false ∧ s.wpdu.buf = none ∧ r = .error) (ha : a.removes = false) :
    s.Touch a s' := by
  cases waitSlot_inv h with
  | park _ hbuf =>
      refine ⟨rfl, .inl, .same (fun hkill => ?_) ha rfl rfl rfl⟩
      rw [(hk.mp hkill).2.1] at hbuf
      cases hbuf
  | refuse hdead =>
      refine ⟨rfl, .inl, .same (fun hkill => ?_) ha rfl rfl rfl⟩
      cases (hk.mp hkill).1.symm.trans hdead
  | take hdead hbuf h =>
      obtain ⟨hab, hcl, hrd, ⟨hr, hd, hwr⟩ | ⟨hr, hd, hwr⟩⟩ := install_flags h
      · exact ⟨hab, fun hc => .inl (hcl ▸ hc), .kill (hk.mpr ⟨hdead, hbuf, hr⟩) ha hd hrd hwr⟩
      · refine ⟨hab, fun hc => .inl (hcl ▸ hc), ?_⟩
        have hnk : ¬ s.Kills a := fun hkill => hr (hk.mp hkill).2.2
        rcases hwr with hwr | hwr
        · exact .same hnk ha hd hrd hwr
        · exact .arm hnk ha hdead (hd.trans hdead) hrd hwr

/-- The effect is read off the flags. -/
theorem Touch.frame {s₁ : Conn} (h : s₁.Touch a s') (hk : s₁.Kills a ↔ s.Kills a)
    (hab : s₁.aborted = s.aborted) (hcl : s₁.closing = s.closing) (hd : s₁.dead = s.dead)
    (hrd : s₁.watchRd = s.watchRd) (hwr : s₁.watchWr = s.watchWr) : s.Touch a s' where
  aborted := h.aborted.trans hab
  closing hc := hcl ▸ h.closing hc
  flags := by
    cases h.flags with
    | same hnk ha hd' hrd' hwr' =>
        exact .same (hk.not.mp hnk) ha (hd'.trans hd) (hrd'.trans hrd) (hwr'.trans hwr)
    | arm hnk ha hd₀ hd' hrd' hwr' =>
        exact .arm (hk.not.mp hnk) ha (hd.symm.trans hd₀) hd' (hrd'.trans hrd) hwr'
    | kill hkill ha hd' hrd' hwr' =>
        exact .kill (hk.mp hkill) ha hd' (hrd'.trans hrd) (hwr'.trans hwr)
    | remove hnk ha hd' hrd' hwr' => exact .remove (hk.not.mp hnk) ha (hd'.trans hd) hrd' hwr'

theorem touch_step (ha : a.ofPoll = false) (h : s.step a = some s') : s.Touch a s' := by
  cases step_inv h with
  | send _ h | resumeSlot _ _ h =>
      exact (waitSlot_flags h Iff.rfl rfl).frame Iff.rfl rfl rfl rfl rfl rfl
  | @resumeComplete t p c _ _ =>
      obtain ⟨hab, hcl, hd, hrd, hwr⟩ := waitComplete_flags { s with sendComplete := c } t p
      exact ⟨hab, fun hc => .inl (hcl ▸ hc), .same id rfl hd hrd hwr⟩
  | writeCb _ | readDead _ | readFail _ _ => cases ha
  | unwatch _ => exact ⟨rfl, .inl, .remove id rfl rfl rfl rfl⟩
  | closeRemove _ => exact ⟨rfl, fun hc => (by cases hc), .remove id rfl rfl rfl rfl⟩
  | closeDead hd => exact ⟨rfl, .inl, .same (fun hk => by cases hk.symm.trans hd) rfl rfl rfl rfl⟩
  | closeconn hd => exact ⟨rfl, fun _ => .inr rfl, .kill hd rfl rfl rfl rfl⟩
  | removed _ | spuriousSlot _ | spuriousComplete _ =>
      exact ⟨rfl, .inl, .same id rfl rfl rfl rfl⟩

/-- Who calls `block_remove_fd` has marked the connection dead. -/
theorem dead_of_removes (hw : s.Writes) (hcl : s.closing = true → s.dead = true)
    (ha : a.removes = true) (h : s.step a = some s') : s.dead = true := by
  cases step_inv h with
  | unwatch ht => exact hw.gaveUp _ _ ht rfl
  | closeRemove hc => exact hcl hc
  | _ => cases ha

/-- The callbacks of the poll thread on a live connection. -/
theorem writeCb_flags {w : Option Nat} (hd : s.dead = false) (h : s.writeCb r w = some s') :
    s'.closing = s.closing ∧ (s.wpdu.sz = 0 → s'.dead = false) ∧
      (s'.dead = false → s'.watchRd = s.watchRd) := by
  cases writeCb_inv h with
  | abort _ => exact ⟨rfl, fun _ => hd, fun _ => rfl⟩
  | idle _ _ => exact ⟨rfl, fun _ => hd, fun _ => rfl⟩
  | failed _ hsz hw _ =>
      obtain ⟨b, o, rfl, -⟩ := writepdu_frame hw
      exact ⟨rfl, fun hz => absurd hz hsz, nofun⟩
  | rest _ hsz hw _ | complete _ hsz hw _ =>
      obtain ⟨b, o, rfl, -⟩ := writepdu_frame hw
      exact ⟨rfl, fun hz => absurd hz hsz, fun _ => rfl⟩

end Conn

namespace PolledConn

variable {s s' : PolledConn} {a : PolledConnAct} {r : WriteResult} {w : Option Nat}

/-- No step marks the connection dead while `fd_` is watched for `CB_WRONLY` or
the poll thread has it in the write set of its round. -/
def Quiet (s : PolledConn) : PolledConnAct → Prop
  | .other a => s.conn.Kills a → s.conn.watchWr = false ∧ s.round.hasWrite = false
  | _ => True

instance (s : PolledConn) : (a : PolledConnAct) → Decidable (s.Quiet a)
  | .other a => inferInstanceAs (Decidable (s.conn.Kills a → _))
  | .removed | .copy | .select _ _ | .check | .readOk | .readFail _ | .writeCb _ _ =>
      inferInstanceAs (Decidable True)

/-- What a step can do. -/
inductive Move (s : PolledConn) : PolledConnAct → PolledConn → Prop where
  | other {a : ConnAct} {s' : PolledConn} :
      a.ofPoll = false → s.other a = some s' → Move s (.other a) s'
  | removed : 0 < s.removing →
      Move s .removed { s with callback := false, removing := s.removing - 1 }
  /-- The poll thread goes on.  A write comes from the sets or from the round, and
  is called with the callbacks set. -/
  | round {a : PolledConnAct} {d : Round} :
      (d.hasWrite = true → s.conn.watchWr = true ∨ s.round.hasWrite = true) →
      (d = .inWrite → s.callback = true ∧ s.round.hasWrite = true) →
      Move s a { s with round := d }
  | readFail {w : Option Nat} {wr : Bool} {s' : PolledConn} :
      s.round = .inRead wr → s.readFail wr w = some s' → Move s (.readFail w) s'
  | writeCb {r : WriteResult} {w : Option Nat} {s' : PolledConn} :
      s.round = .inWrite → s.writeCb r w = some s' → Move s (.writeCb r w) s'

theorem step_of_next (hn : s.next a = some s') : s.conn.aborted = false ∧ s.step a = some s' := by
  unfold next at hn
  split at hn
  · cases hn
  · next hab => exact ⟨by simpa using hab, hn⟩

theorem other_of_step {a : ConnAct} (hn : s.step (.other a) = some s') :
    a.ofPoll = false ∧ s.other a = some s' := by
  simp only [step] at hn
  split at hn
  · cases hn
  · next ha => exact ⟨by simpa using ha, hn⟩

theorem inWrite_of_step (hn : s.step (.writeCb r w) = some s') :
    s.round = .inWrite ∧ s.writeCb r w = some s' := by
  simp only [step] at hn
  split at hn
  · next hr => exact ⟨hr, hn⟩
  · cases hn

theorem move_check {rd wr : Bool} (hr : s.round = .due rd wr) : Move s a (s.check rd wr) := by
  have hwrite : wr = true → s.conn.watchWr = true ∨ s.round.hasWrite = true := by
    rintro rfl
    rw [hr]
    exact .inr rfl
  match rd, wr with
  | true, wr =>
      show Move s a { s with round := if s.callback then .inRead wr else .due false wr }
      split
      · exact .round hwrite nofun
      · exact .round hwrite nofun
  | false, true =>
      show Move s a { s with round := if s.callback then .inWrite else .due false false }
      split
      · next hcb => exact .round hwrite fun _ => ⟨hcb, by rw [hr]; rfl⟩
      · exact .round nofun nofun
  | false, false => exact .round nofun nofun

theorem next_move (hn : s.next a = some s') : Move s a s' := by
  obtain ⟨-, hn⟩ := step_of_next hn
  cases a with
  | other a =>
      obtain ⟨ha, hn⟩ := other_of_step hn
      exact .other ha hn
  | removed =>
      simp only [step] at hn
      split at hn
      · next hpos =>
          cases hn
          exact .removed hpos
      · cases hn
  | copy =>
      simp only [step] at hn
      split at hn
      · cases hn
        exact .round .inl nofun
      · cases hn
  | select rd wr =>
      simp only [step] at hn
      split at hn
      · next r w hr =>
          split at hn
          · next hle =>
              cases hn
              refine .round (fun hw => ?_) nofun
              rw [hr]
              exact .inr (hle.2 hw)
          · cases hn
      · cases hn
  | check =>
      simp only [step] at hn
      split at hn
      · next hr =>
          cases hn
          exact move_check hr
      · cases hn
  | readOk =>
      simp only [step] at hn
      split at hn
      · next hr =>
          cases hn
          refine .round (fun hw => ?_) nofun
          rw [hr]
          exact .inr hw
      · cases hn
  | readFail w =>
      simp only [step] at hn
      split at hn
      · next hr => exact .readFail hr hn
      · cases hn
  | writeCb r w =>
      obtain ⟨hr, hn⟩ := inWrite_of_step hn
      exact .writeCb hr hn

/-- A dead connection is out of the reach of `write_cb`. -/
structure Shielded (s : PolledConn) : Prop where
  dead : s.conn.dead = true → s.callback = true →
    s.conn.watchWr = false ∧ s.round.hasWrite = false
  inWrite : s.round = .inWrite → s.conn.dead = false

theorem shielded_init : Shielded init where
  dead hd := by cases hd
  inWrite hw := by cases hw

theorem Shielded.other {a : ConnAct} (h : s.Shielded) (ha : a.ofPoll = false)
    (hq : s.Quiet (.other a)) (hn : s.other a = some s') : s'.Shielded := by
  obtain ⟨c, hc, rfl⟩ := Option.map_eq_some_iff.mp hn
  cases (Conn.touch_step ha (Conn.step_of_next hc)).flags with
  | same hk hr hd hrd hwr =>
      refine ⟨fun hdead hcb => ?_, fun hw => hd.trans (h.inWrite hw)⟩
      dsimp only at hdead hcb ⊢
      rw [hwr] at hcb ⊢
      exact h.dead (hd ▸ hdead) (by simpa using hcb)
  | arm hk hr hd₀ hd hrd hwr =>
      refine ⟨fun hdead _ => ?_, fun _ => hd⟩
      rw [show c.dead = true from hdead] at hd
      cases hd
  | kill hk hr hd hrd hwr =>
      obtain ⟨hwr₀, hround⟩ := hq hk
      refine ⟨fun _ _ => ⟨hwr.trans hwr₀, hround⟩, fun hw => ?_⟩
      rw [show s.round = .inWrite from hw] at hround
      cases hround
  | remove hk hr hd hrd hwr =>
      refine ⟨fun hdead hcb => ?_, fun hw => hd.trans (h.inWrite hw)⟩
      dsimp only at hdead hcb ⊢
      rw [hwr] at hcb
      exact ⟨hwr, (h.dead (hd ▸ hdead) (by simpa using hcb)).2⟩

theorem Shielded.round (h : s.Shielded) {d : Round}
    (hwrite : d.hasWrite = true → s.conn.watchWr = true ∨ s.round.hasWrite = true)
    (hin : d = .inWrite → s.callback = true ∧ s.round.hasWrite = true) :
    Shielded { s with round := d } where
  dead hd hcb := by
    obtain ⟨hwr, hround⟩ := h.dead hd hcb
    refine ⟨hwr, ?_⟩
    by_contra hdw
    rcases hwrite (by simpa using hdw) with hw | hw
    · cases hwr.symm.trans hw
    · cases hround.symm.trans hw
  inWrite hd := by
    obtain ⟨hcb, hw⟩ := hin hd
    by_contra hdead
    cases (h.dead (by simpa using hdead) hcb).2.symm.trans hw

theorem Shielded.readFail (h : s.Shielded) {wr : Bool} (hr : s.round = .inRead wr)
    (hn : s.readFail wr w = some s') : s'.Shielded := by
  obtain ⟨c, hc, rfl⟩ := Option.map_eq_some_iff.mp hn
  refine ⟨fun hd hcb => ?_, fun hw => by cases hw⟩
  obtain ⟨hdead, hcb⟩ := Bool.and_eq_true_iff.mp hcb
  obtain ⟨hwr, hround⟩ := h.dead hdead hcb
  have hsame : c = s.conn := by
    have hstep := Conn.step_of_next hc
    simp only [Conn.step, Conn.readFail, hdead] at hstep
    exact (Option.some.inj hstep).symm
  rw [hr] at hround
  exact ⟨hsame ▸ hwr, hround⟩

theorem Shielded.writeCb (h : s.Shielded) (hr : s.round = .inWrite)
    (hn : s.writeCb r w = some s') : s'.Shielded := by
  obtain ⟨c, hc, rfl⟩ := Option.map_eq_some_iff.mp hn
  have halive := h.inWrite hr
  refine ⟨fun hd hcb => ?_, fun hw => by cases hw⟩
  have hd : c.dead = true := hd
  have hcb : s.callbackAfter c = true := hcb
  have hstep := Conn.step_of_next hc
  by_cases hsz : s.conn.wpdu.sz = 0
  · cases hd.symm.trans ((Conn.writeCb_flags halive hstep).2.1 hsz)
  · -- a failed write has removed the callbacks
    simp [callbackAfter, halive, hsz, hd] at hcb

theorem shielded_step (h : s.Shielded) (hq : s.Quiet a) (hn : s.next a = some s') :
    s'.Shielded := by
  cases next_move hn with
  | other ha hn => exact h.other ha hq hn
  | removed _ => exact { dead := fun _ hcb => (by cases hcb), inWrite := h.inWrite }
  | round hwrite hin => exact h.round hwrite hin
  | readFail hr hn => exact h.readFail hr hn
  | writeCb hr hn => exact h.writeCb hr hn

/-! ## A step that is not quiet -/

/-- While the connection lives, its callbacks are set and reads are watched. -/
structure Serving (s : PolledConn) : Prop where
  writes : s.conn.Writes
  closing : s.conn.closing = true → s.conn.dead = true
  callback : s.conn.dead = false → s.callback = true
  watchRd : s.conn.dead = false → s.conn.watchRd = true
  removing : s.conn.dead = false → s.removing = 0

theorem serving_init : Serving init where
  writes := Conn.writes_init
  closing hc := by cases hc
  callback _ := rfl
  watchRd _ := rfl
  removing _ := rfl

theorem Serving.other {a : ConnAct} (h : s.Serving) (ha : a.ofPoll = false)
    (hn : s.other a = some s') : s'.Serving := by
  obtain ⟨c, hc, rfl⟩ := Option.map_eq_some_iff.mp hn
  have hstep := Conn.step_of_next hc
  have htouch := Conn.touch_step ha hstep
  have hw := Conn.writes_step h.writes hstep
  have hcl : c.closing = true → c.dead = true := by
    intro hcc
    rcases htouch.closing hcc with hcc | hcc
    · exact (Conn.step_of_dead (h.closing hcc) hstep).1
    · exact hcc
  cases htouch.flags with
  | same _ hr hd hrd hwr =>
      refine ⟨hw, hcl, fun hd' => ?_, fun hd' => hrd.trans (h.watchRd (hd ▸ hd')), fun hd' => ?_⟩
      · simp [h.callback (hd ▸ hd')]
      · simp [hr, h.removing (hd ▸ hd')]
  | arm _ hr hd _ hrd hwr =>
      refine ⟨hw, hcl, fun _ => ?_, fun _ => hrd.trans (h.watchRd hd), fun _ => ?_⟩
      · simp [h.callback hd]
      · simp [hr, h.removing hd]
  | kill _ _ hd _ _ =>
      have hnot : c.dead ≠ false := by simp [hd]
      exact ⟨hw, hcl, fun hd' => absurd hd' hnot, fun hd' => absurd hd' hnot,
        fun hd' => absurd hd' hnot⟩
  | remove _ hr hd _ _ =>
      have hnot : c.dead ≠ false := by
        simp [hd, Conn.dead_of_removes h.writes h.closing hr hstep]
      exact ⟨hw, hcl, fun hd' => absurd hd' hnot, fun hd' => absurd hd' hnot,
        fun hd' => absurd hd' hnot⟩

theorem Serving.readFail (h : s.Serving) {wr : Bool} (hn : s.readFail wr w = some s') :
    s'.Serving := by
  obtain ⟨c, hc, rfl⟩ := Option.map_eq_some_iff.mp hn
  have hstep := Conn.step_of_next hc
  have hw := Conn.writes_step h.writes hstep
  have hdead : c.dead = true := by
    simp only [Conn.step, Conn.readFail] at hstep
    split at hstep
    · next hd =>
        cases hstep
        exact hd
    · obtain ⟨d, -, rfl⟩ := Option.map_eq_some_iff.mp hstep
      rfl
  have hnot : c.dead ≠ false := by simp [hdead]
  exact ⟨hw, fun _ => hdead, fun hd => absurd hd hnot, fun hd => absurd hd hnot,
    fun hd => absurd hd hnot⟩

theorem Serving.writeCb (h : s.Serving) (hn : s.writeCb r w = some s') : s'.Serving := by
  obtain ⟨c, hc, rfl⟩ := Option.map_eq_some_iff.mp hn
  have hstep := Conn.step_of_next hc
  have hw := Conn.writes_step h.writes hstep
  cases hd₀ : s.conn.dead with
  | true =>
      have hdead := (Conn.step_of_dead hd₀ hstep).1
      have hnot : c.dead ≠ false := by simp [hdead]
      exact ⟨hw, fun _ => hdead, fun hd => absurd hd hnot, fun hd => absurd hd hnot,
        fun hd => absurd hd hnot⟩
  | false =>
      obtain ⟨hcl, -, hrd⟩ := Conn.writeCb_flags hd₀ hstep
      refine ⟨hw, fun hcc => ?_, fun hd => ?_, fun hd => (hrd hd).trans (h.watchRd hd₀),
        fun _ => h.removing hd₀⟩
      · cases hd₀.symm.trans (h.closing (hcl ▸ hcc))
      · have hd : c.dead = false := hd
        simp [callbackAfter, hd₀, hd, h.callback hd₀, h.watchRd hd₀]

theorem serving_step (h : s.Serving) (hn : s.next a = some s') : s'.Serving := by
  cases next_move hn with
  | other ha hn => exact h.other ha hn
  | removed hpos =>
      have hnot : s.conn.dead ≠ false := fun hd => by
        rw [h.removing hd] at hpos
        cases hpos
      exact ⟨h.writes, h.closing, fun hd => absurd hd hnot, h.watchRd, fun hd => absurd hd hnot⟩
  | round _ _ => exact ⟨h.writes, h.closing, h.callback, h.watchRd, h.removing⟩
  | readFail _ hn => exact h.readFail hn
  | writeCb _ hn => exact h.writeCb hn

/-! ## The poll thread alone -/

section

variable (hab : s.conn.aborted = false) (hcb : s.callback = true)

include hab in
/-- A step of the round that leaves the connection alone. -/
theorem reaches_round {d d' : Round} (a : PolledConnAct)
    (hs : step { s with round := d } a = some { s with round := d' }) :
    polledConnMachine.Reaches { s with round := d } { s with round := d' } := by
  refine .single (a := a) ?_
  simp [polledConnMachine, next, hab, hs]

include hab in
theorem reaches_select (rd wr : Bool) :
    polledConnMachine.Reaches { s with round := .selecting rd wr }
      { s with round := .due false wr } :=
  reaches_round hab (.select false wr) (by simp [step])

include hab hcb

theorem reaches_inWrite : polledConnMachine.Reaches { s with round := .due false true }
    { s with round := .inWrite } :=
  reaches_round hab .check (by simp [step, check, hcb])

/-- The read callback comes first, and need not fail. -/
theorem reaches_due (rd wr : Bool) : polledConnMachine.Reaches { s with round := .due rd wr }
    { s with round := .due false wr } := by
  cases rd with
  | false => exact .refl _
  | true =>
      have henter : polledConnMachine.Reaches { s with round := .due true wr }
          { s with round := .inRead wr } := reaches_round hab .check (by simp [step, check, hcb])
      exact henter.trans (reaches_round hab .readOk rfl)

/-- A round that begins with the write watch comes to `write_cb`. -/
theorem reaches_inWrite_of_idle (hwr : s.conn.watchWr = true) :
    polledConnMachine.Reaches { s with round := .idle } { s with round := .inWrite } := by
  have hcopy : polledConnMachine.Reaches { s with round := .idle }
      { s with round := .selecting s.conn.watchRd true } :=
    reaches_round hab .copy (by simp [step, hwr])
  exact (hcopy.trans (reaches_select hab _ _)).trans (reaches_inWrite hab hcb)

/-- With its callbacks set, `write_cb` is called for a descriptor that is in the
write set or in the write list of the round. -/
theorem reaches_inWrite_of_write (hw : s.conn.watchWr = true ∨ s.round.hasWrite = true) :
    polledConnMachine.Reaches s { s with round := .inWrite } := by
  have hdue : ∀ wr, (wr = false → s.conn.watchWr = true) →
      polledConnMachine.Reaches { s with round := .due false wr } { s with round := .inWrite } := by
    rintro (_ | _) hwr
    · have hend : polledConnMachine.Reaches { s with round := .due false false }
          { s with round := .idle } := reaches_round hab .check rfl
      exact hend.trans (reaches_inWrite_of_idle hab hcb (hwr rfl))
    · exact reaches_inWrite hab hcb
  have hnext : s.round.hasWrite = false → s.conn.watchWr = true := by
    intro hno
    rcases hw with hwr | hround
    · exact hwr
    · cases hno.symm.trans hround
  obtain ⟨conn, callback, removing, round⟩ := s
  cases round with
  | idle => exact reaches_inWrite_of_idle hab hcb (hnext rfl)
  | selecting rd wr => exact (reaches_select hab rd wr).trans (hdue wr hnext)
  | due rd wr => exact (reaches_due hab hcb rd wr).trans (hdue wr hnext)
  | inRead wr => exact (reaches_round hab .readOk rfl).trans (hdue wr hnext)
  | inWrite => exact .refl _

end

/-- A step that marks the connection dead with a write on its way. -/
theorem Serving.reaches_inWrite (h : s.Serving) (hq : ¬ s.Quiet a)
    (hn : polledConnMachine.next s a = some s') :
    s'.conn.dead = true ∧ polledConnMachine.Reaches s' { s' with round := .inWrite } := by
  obtain ⟨hab, hn⟩ := step_of_next hn
  cases a with
  | other a =>
      obtain ⟨hk, hw⟩ := Classical.not_imp.mp hq
      obtain ⟨ha, hn⟩ := other_of_step hn
      obtain ⟨c, hc, rfl⟩ := Option.map_eq_some_iff.mp hn
      have htouch := Conn.touch_step ha (Conn.step_of_next hc)
      cases htouch.flags with
      | kill _ _ hd _ hwr =>
          refine ⟨hd, reaches_inWrite_of_write (htouch.aborted.trans hab) ?_ ?_⟩
          · simp [h.callback (Conn.alive_of_kills hk)]
          · dsimp only
            rw [hwr]
            by_contra hno
            simp only [not_or, Bool.not_eq_true] at hno
            exact hw hno
      | same hnk _ _ _ _ => exact absurd hk hnk
      | arm hnk _ _ _ _ _ => exact absurd hk hnk
      | remove hnk _ _ _ _ => exact absurd hk hnk
  | _ => exact absurd trivial hq

/-! ## Runs -/

theorem serving_of_reachable (h : polledConnMachine.Reachable s) : s.Serving :=
  h.invariant serving_init fun _ _ _ hs hn => serving_step hs hn

theorem shielded_of_reachedVia (h : polledConnMachine.ReachedVia Quiet s) : s.Shielded :=
  h.invariant shielded_init fun _ _ _ hs hq hn => shielded_step hs hq hn

/-- In every run of quiet steps `write_cb` is called on a live connection only.
The first step that is not quiet leaves the poll thread a way into `write_cb` on
a dead connection. -/
theorem write_cb_alive (h : polledConnMachine.ReachedVia Quiet s) :
    (∀ r w s', polledConnMachine.next s (.writeCb r w) = some s' → s.conn.dead = false) ∧
    ∀ a s', polledConnMachine.next s a = some s' → ¬ s.Quiet a →
      ∃ s'', polledConnMachine.Reaches s' s'' ∧ s''.round = .inWrite ∧ s''.conn.dead = true := by
  refine ⟨fun r w s' hn => ?_, fun a s' hn hq => ?_⟩
  · obtain ⟨-, hn⟩ := step_of_next hn
    exact (shielded_of_reachedVia h).inWrite (inWrite_of_step hn).1
  · obtain ⟨hd, hr⟩ := (serving_of_reachable h.reachable).reaches_inWrite hq hn
    exact ⟨_, hr, rfl, hd⟩

/-- A write watch that is armed and taken back before the connection is closed. -/
def quietClose : List PolledConnAct :=
  [.other (.send 1 (bytePdu 7) (.wrote 3)), .copy, .select false true, .check,
    .writeCb (.wrote 2) (some 1), .check, .other (.resumeComplete 1), .copy, .select false true,
    .check, .writeCb .again none, .check, .other .closeconn, .copy, .select true false, .check]

theorem write_cb_alive_quietClose : ∃ s, polledConnMachine.ReachedVia Quiet s ∧
    s.conn.dead = true ∧ s.round = .inRead false ∧
    ∀ r w s', polledConnMachine.next s (.writeCb r w) = some s' → s.conn.dead = false := by
  obtain ⟨s, hs, hp⟩ := @Machine.exists_reachedVia_of_run _ _ polledConnMachine Quiet _
    (fun s => decide (s.conn.dead = true ∧ s.round = .inRead false)) quietClose (by decide)
  obtain ⟨hd, hr⟩ := of_decide_eq_true hp
  exact ⟨s, hs, hd, hr, (write_cb_alive hs).1⟩

/-- A `closeconn` behind a partial write.  The poll thread calls `write_cb` before
`block_remove_fd` takes the descriptor out of the write set. -/
theorem write_cb_on_dead : ∃ s, polledConnMachine.Reachable s ∧ s.round = .inWrite ∧
    s.conn.dead = true ∧
    ∃ s', polledConnMachine.next s (.writeCb .again none) = some s' ∧ s'.conn.aborted = true := by
  obtain ⟨s, hs, hp⟩ := @Machine.exists_reachable_of_run _ _ polledConnMachine
    (fun s => decide (s.round = .inWrite ∧ s.conn.dead = true) &&
      (polledConnMachine.next s (.writeCb .again none)).any fun s' => s'.conn.aborted)
    [.other (.send 1 (bytePdu 7) (.wrote 3)), .other .closeconn, .copy, .select false true, .check]
    (by decide)
  obtain ⟨hp, hnext⟩ := Bool.and_eq_true_iff.mp hp
  obtain ⟨hr, hd⟩ := of_decide_eq_true hp
  obtain ⟨s', hs', hab⟩ := (Option.any_eq_true _ _).mp hnext
  exact ⟨s, hs, hr, hd, s', hs', hab⟩

end PolledConn

end RpcLock.Connection
