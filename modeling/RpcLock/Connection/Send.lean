import RpcLock.Connection.Pdu
import RpcLock.Library.CondVar
import RpcLock.Library.Machine
import Mathlib.Logic.Function.Basic

/-!
# `connection::send` and `write_cb`

Any number of threads call `send` on one connection.  The connection has a
single write slot `wpdu_`.  A step is one critical section under `m_`: the entry
of `send`, its continuations after each wait, the two halves around
`block_remove_fd`, and the callbacks of the poll thread.

The result of a `write()`, the thread a signal wakes and spurious wakeups are
chosen by the label.  `write_cb` and a failing `read_cb` may come at any moment.
A read that does not fail touches nothing of the writing half and is left out.
-/

namespace RpcLock.Connection

/-- What `write()` returns: the number of bytes the socket took, `EAGAIN`, or
another error. -/
inductive WriteResult where
  | wrote (n : Nat)
  | again
  | error
deriving DecidableEq, Repr

/-- `connection::charbuf`, with the contents of its buffer. -/
structure Charbuf where
  buf : Option (List UInt8)
  sz : Int
  solong : Int
deriving DecidableEq, Repr

def Charbuf.empty : Charbuf := ⟨none, 0, 0⟩

/-- How far an activation of `send` got. -/
inductive SendPhase where
  /-- Waits on `send_wait_` for the slot. -/
  | waitSlot
  /-- Waits on `send_complete_`. -/
  | waitComplete
  /-- Its `writepdu` failed, and it is about to call `block_remove_fd`. -/
  | failed
  /-- In `block_remove_fd`. -/
  | removing
  | returned (ret : Bool)
deriving DecidableEq, Repr

/-- An activation of `send`. -/
structure Sender where
  pdu : Pdu
  phase : SendPhase
deriving DecidableEq, Repr

/-- The writing half of a connection. -/
structure Conn where
  dead : Bool
  wpdu : Charbuf
  waiters : Nat
  sendWait : CondVar Nat
  sendComplete : CondVar Nat
  /-- `fd_` is watched for `CB_RDONLY`. -/
  watchRd : Bool
  /-- `fd_` is watched for `CB_WRONLY`. -/
  watchWr : Bool
  senders : Nat → Option Sender
  /-- `closeconn` is about to call `block_remove_fd`. -/
  closing : Bool
  aborted : Bool
  /-- The senders in the order they put their buffer into `wpdu_`. -/
  installed : List (Nat × Pdu)
  /-- The bytes the socket accepted. -/
  out : List UInt8

inductive ConnAct where
  /-- Thread `t` enters `send`. -/
  | send (t : Nat) (pdu : Pdu) (r : WriteResult)
  /-- Thread `t` has the mutex again after its wait on `send_wait_`. -/
  | resumeSlot (t : Nat) (r : WriteResult)
  /-- Thread `t` has the mutex again after its wait on `send_complete_`. -/
  | resumeComplete (t : Nat)
  /-- `block_remove_fd` stops watching `fd_`. -/
  | unwatch (t : Nat)
  /-- Thread `t` has the mutex again after `block_remove_fd`. -/
  | removed (t : Nat)
  /-- `w` is the thread the signal wakes. -/
  | writeCb (r : WriteResult) (w : Option Nat)
  /-- `read_cb` when `readpdu` fails. -/
  | readFail (w : Option Nat)
  | closeconn
  /-- The `block_remove_fd` of `closeconn`. -/
  | closeRemove
  | spuriousSlot (t : Nat)
  | spuriousComplete (t : Nat)
deriving DecidableEq, Repr

namespace Conn

/-- `connection::connection`. -/
def init : Conn where
  dead := false
  wpdu := .empty
  waiters := 0
  sendWait := .empty
  sendComplete := .empty
  watchRd := true
  watchWr := false
  senders _ := none
  closing := false
  aborted := false
  installed := []
  out := []

/-- Set the entry of a thread. -/
def setSender (s : Conn) (t : Nat) (x : Sender) : Conn :=
  { s with senders := Function.update s.senders t (some x) }

/-- A failed `VERIFY`. -/
def abort (s : Conn) : Conn := { s with aborted := true }

/-- `del_callback(fd_, CB_RDWR)`, and what `block_remove_fd` does to the watch. -/
def unwatchAll (s : Conn) : Conn := { s with watchRd := false, watchWr := false }

/-- `connection::writepdu`, for `solong >= 0`. -/
def writepdu (s : Conn) (r : WriteResult) : Option (Conn × Bool) :=
  let w := s.wpdu
  if w.solong = w.sz then some (s, true)
  else
    let buf := if w.solong = 0 then w.buf.map (putSize w.sz.toNat) else w.buf
    match r with
    | .wrote n =>
        if n ≤ w.sz - w.solong then
          some ({ s with
            wpdu := ⟨buf, w.sz, w.solong + n⟩
            out := s.out ++ ((buf.getD []).drop w.solong.toNat).take n }, true)
        else none
    | .again => some ({ s with wpdu := ⟨buf, w.sz, w.solong⟩ }, true)
    | .error => some ({ s with wpdu := ⟨buf, 0, -1⟩ }, false)

/-- The slot is free again, and the waiting senders are told. -/
def releaseSlot (s : Conn) : Conn :=
  { s with
    wpdu := .empty
    sendWait := if 0 < s.waiters then s.sendWait.broadcast else s.sendWait }

/-- The end of `send`. -/
def finishSend (s : Conn) (t : Nat) (pdu : Pdu) : Conn :=
  s.releaseSlot.setSender t ⟨pdu, .returned (!s.dead && decide (s.wpdu.solong = s.wpdu.sz))⟩

/-- The head of the loop that waits on `send_complete_`. -/
def waitComplete (s : Conn) (t : Nat) (pdu : Pdu) : Conn :=
  if s.dead = false ∧ 0 ≤ s.wpdu.solong ∧ s.wpdu.solong < s.wpdu.sz then
    { s with sendComplete := s.sendComplete.park t }.setSender t ⟨pdu, .waitComplete⟩
  else s.finishSend t pdu

/-- `send` from where it takes the slot to its next wait. -/
def install (s : Conn) (t : Nat) (pdu : Pdu) (r : WriteResult) : Option Conn :=
  let s₁ := { s with
    wpdu := ⟨some pdu.bytes, pdu.size, 0⟩
    installed := s.installed ++ [(t, pdu)] }
  match s₁.writepdu r with
  | none => none
  | some (s₂, false) => some ({ s₂ with dead := true }.setSender t ⟨pdu, .failed⟩)
  | some (s₂, true) =>
      if s₂.wpdu.solong = s₂.wpdu.sz then some (s₂.finishSend t pdu)
      -- should be rare to need to explicitly add write callback
      else some ({ s₂ with watchWr := true }.waitComplete t pdu)

/-- The head of the loop that waits on `send_wait_`. -/
def waitSlot (s : Conn) (t : Nat) (pdu : Pdu) (r : WriteResult) : Option Conn :=
  if s.dead = false ∧ s.wpdu.buf.isSome then
    some ({ s with sendWait := s.sendWait.park t }.setSender t ⟨pdu, .waitSlot⟩)
  else
    let s₁ := { s with waiters := s.waiters - 1 }
    if s.dead then some (s₁.setSender t ⟨pdu, .returned false⟩) else s₁.install t pdu r

/-- `connection::write_cb`. -/
def writeCb (s : Conn) (r : WriteResult) (w : Option Nat) : Option Conn :=
  -- VERIFY(!dead_)
  if s.dead then some s.abort
  else if s.wpdu.sz = 0 then some { s with watchWr := false }
  -- the VERIFY of writepdu
  else if s.wpdu.solong < 0 then some s.abort
  else match s.writepdu r with
    | none => none
    | some (s₁, false) =>
        (s₁.sendComplete.signal w).map fun c =>
          { s₁.unwatchAll with dead := true, sendComplete := c }
    | some (s₁, true) =>
        if s₁.wpdu.solong < s₁.wpdu.sz then some s₁
        else (s₁.sendComplete.signal w).map fun c => { s₁ with sendComplete := c }

/-- `connection::read_cb` after `readpdu` failed. -/
def readFail (s : Conn) (w : Option Nat) : Option Conn :=
  if s.dead then some s
  else (s.sendComplete.signal w).map fun c =>
    { s.unwatchAll with dead := true, sendComplete := c }

/-- The critical section of `closeconn`. -/
def closeconn (s : Conn) : Conn := if s.dead then s else { s with dead := true, closing := true }

/-- Continue with thread `t` at the given phase. -/
def withSender (s : Conn) (t : Nat) (phase : SendPhase) (f : Pdu → Option Conn) : Option Conn :=
  match s.senders t with
  | none => none
  | some x => if x.phase = phase then f x.pdu else none

/-- One critical section. -/
def step (s : Conn) : ConnAct → Option Conn
  | .send t pdu r =>
      if (s.senders t).isSome then none
      else { s with waiters := s.waiters + 1 }.waitSlot t pdu r
  | .resumeSlot t r => s.withSender t .waitSlot fun pdu =>
      (s.sendWait.resume t).bind fun c => { s with sendWait := c }.waitSlot t pdu r
  | .resumeComplete t => s.withSender t .waitComplete fun pdu =>
      (s.sendComplete.resume t).map fun c => { s with sendComplete := c }.waitComplete t pdu
  | .unwatch t => s.withSender t .failed fun pdu =>
      some (s.unwatchAll.setSender t ⟨pdu, .removing⟩)
  | .removed t => s.withSender t .removing fun pdu => some (s.finishSend t pdu)
  | .writeCb r w => s.writeCb r w
  | .readFail w => s.readFail w
  | .closeconn => some s.closeconn
  | .closeRemove => if s.closing then some { s.unwatchAll with closing := false } else none
  | .spuriousSlot t => (s.sendWait.wake t).map fun c => { s with sendWait := c }
  | .spuriousComplete t => (s.sendComplete.wake t).map fun c => { s with sendComplete := c }

/-- One step of the connection. -/
def next (s : Conn) (a : ConnAct) : Option Conn := if s.aborted then none else s.step a

/-! ## What the functions come to -/

variable {s s' : Conn} {t : Nat} {pdu : Pdu} {r : WriteResult} {w : Option Nat}

/-- `writepdu` touches the buffer and the socket only. -/
theorem writepdu_frame {ok : Bool} (h : s.writepdu r = some (s', ok)) :
    ∃ b o, s' = { s with wpdu := b, out := o } ∧
      (s.wpdu.buf.isSome = true → b.buf.isSome = true) := by
  have hbuf : ∀ {c : Prop} [Decidable c] {f : List UInt8 → List UInt8},
      s.wpdu.buf.isSome = true →
        (if c then s.wpdu.buf.map f else s.wpdu.buf).isSome = true := by
    intro c _ f hs
    split
    · simpa using hs
    · exact hs
  unfold Conn.writepdu at h
  dsimp only at h
  split at h
  · cases h
    exact ⟨s.wpdu, s.out, rfl, id⟩
  · cases r with
    | wrote n =>
        simp only at h
        split at h
        · cases h
          exact ⟨_, _, rfl, hbuf⟩
        · cases h
    | again =>
        cases h
        exact ⟨_, s.out, rfl, hbuf⟩
    | error =>
        cases h
        exact ⟨_, s.out, rfl, hbuf⟩

/-- A sender has put its buffer into the slot. -/
def taken (s : Conn) (t : Nat) (pdu : Pdu) : Conn :=
  { s with
    wpdu := ⟨some pdu.bytes, pdu.size, 0⟩
    installed := s.installed ++ [(t, pdu)] }

/-- The outcomes of `install`. -/
inductive Install (s : Conn) (t : Nat) (pdu : Pdu) (r : WriteResult) : Conn → Prop where
  | failed {s₁ : Conn} : (s.taken t pdu).writepdu r = some (s₁, false) →
      Install s t pdu r ({ s₁ with dead := true }.setSender t ⟨pdu, .failed⟩)
  | complete {s₁ : Conn} : (s.taken t pdu).writepdu r = some (s₁, true) →
      s₁.wpdu.solong = s₁.wpdu.sz → Install s t pdu r (s₁.finishSend t pdu)
  | rest {s₁ : Conn} : (s.taken t pdu).writepdu r = some (s₁, true) →
      Install s t pdu r ({ s₁ with watchWr := true }.waitComplete t pdu)

theorem install_inv (h : s.install t pdu r = some s') : s.Install t pdu r s' := by
  unfold install at h
  dsimp only at h
  split at h
  · cases h
  · next hw =>
      cases h
      exact .failed hw
  · next hw =>
      split at h
      · next heq =>
          cases h
          exact .complete hw heq
      · cases h
        exact .rest hw

/-- The outcomes of the head of the loop on `send_wait_`. -/
inductive WaitSlot (s : Conn) (t : Nat) (pdu : Pdu) (r : WriteResult) : Conn → Prop where
  | park : s.dead = false → s.wpdu.buf.isSome = true →
      WaitSlot s t pdu r ({ s with sendWait := s.sendWait.park t }.setSender t ⟨pdu, .waitSlot⟩)
  | refuse : s.dead = true →
      WaitSlot s t pdu r ({ s with waiters := s.waiters - 1 }.setSender t ⟨pdu, .returned false⟩)
  | take {s' : Conn} : s.dead = false → s.wpdu.buf = none →
      { s with waiters := s.waiters - 1 }.install t pdu r = some s' → WaitSlot s t pdu r s'

theorem waitSlot_inv (h : s.waitSlot t pdu r = some s') : s.WaitSlot t pdu r s' := by
  unfold waitSlot at h
  split at h
  · next hc =>
      cases h
      exact .park hc.1 hc.2
  · next hc =>
      simp only at h
      split at h
      · next hd =>
          cases h
          exact .refuse hd
      · next hd =>
          have hd : s.dead = false := by simpa using hd
          exact .take hd (by simpa [hd] using hc) h

/-- The outcomes of `write_cb`. -/
inductive WriteCb (s : Conn) (r : WriteResult) (w : Option Nat) : Conn → Prop where
  | abort : s.dead = true ∨ s.wpdu.solong < 0 → WriteCb s r w s.abort
  | idle : s.dead = false → s.wpdu.sz = 0 → WriteCb s r w { s with watchWr := false }
  | failed {s₁ : Conn} {c : CondVar Nat} : s.dead = false → s.wpdu.sz ≠ 0 →
      s.writepdu r = some (s₁, false) → s₁.sendComplete.signal w = some c →
      WriteCb s r w { s₁.unwatchAll with dead := true, sendComplete := c }
  | rest {s₁ : Conn} : s.dead = false → s.wpdu.sz ≠ 0 → s.writepdu r = some (s₁, true) →
      s₁.wpdu.solong < s₁.wpdu.sz → WriteCb s r w s₁
  | complete {s₁ : Conn} {c : CondVar Nat} : s.dead = false → s.wpdu.sz ≠ 0 →
      s.writepdu r = some (s₁, true) → s₁.sendComplete.signal w = some c →
      WriteCb s r w { s₁ with sendComplete := c }

theorem writeCb_inv (h : s.writeCb r w = some s') : s.WriteCb r w s' := by
  unfold writeCb at h
  split at h
  · next hd =>
      cases h
      exact .abort (.inl hd)
  next hd =>
  have hd : s.dead = false := by simpa using hd
  split at h
  · next hsz =>
      cases h
      exact .idle hd hsz
  next hsz =>
  split at h
  · next hneg =>
      cases h
      exact .abort (.inr hneg)
  split at h
  · cases h
  · next hw =>
      obtain ⟨c, hc, rfl⟩ := Option.map_eq_some_iff.mp h
      exact .failed hd hsz hw hc
  · next hw =>
      split at h
      · next hlt =>
          cases h
          exact .rest hd hsz hw hlt
      · obtain ⟨c, hc, rfl⟩ := Option.map_eq_some_iff.mp h
        exact .complete hd hsz hw hc

theorem withSender_inv {ph : SendPhase} {f : Pdu → Option Conn}
    (h : s.withSender t ph f = some s') : ∃ pdu, s.senders t = some ⟨pdu, ph⟩ ∧ f pdu = some s' := by
  unfold withSender at h
  cases hx : s.senders t with
  | none => simp [hx] at h
  | some x =>
      simp only [hx] at h
      split at h
      · next hph => exact ⟨x.pdu, by rw [← hph], h⟩
      · cases h

/-- The steps. -/
inductive Step (s : Conn) : ConnAct → Conn → Prop where
  | send {t : Nat} {pdu : Pdu} {r : WriteResult} {s' : Conn} : s.senders t = none →
      { s with waiters := s.waiters + 1 }.waitSlot t pdu r = some s' → Step s (.send t pdu r) s'
  | resumeSlot {t : Nat} {pdu : Pdu} {r : WriteResult} {c : CondVar Nat} {s' : Conn} :
      s.senders t = some ⟨pdu, .waitSlot⟩ → s.sendWait.resume t = some c →
      { s with sendWait := c }.waitSlot t pdu r = some s' → Step s (.resumeSlot t r) s'
  | resumeComplete {t : Nat} {pdu : Pdu} {c : CondVar Nat} :
      s.senders t = some ⟨pdu, .waitComplete⟩ → s.sendComplete.resume t = some c →
      Step s (.resumeComplete t) ({ s with sendComplete := c }.waitComplete t pdu)
  | unwatch {t : Nat} {pdu : Pdu} : s.senders t = some ⟨pdu, .failed⟩ →
      Step s (.unwatch t) (s.unwatchAll.setSender t ⟨pdu, .removing⟩)
  | removed {t : Nat} {pdu : Pdu} : s.senders t = some ⟨pdu, .removing⟩ →
      Step s (.removed t) (s.finishSend t pdu)
  | writeCb {r : WriteResult} {w : Option Nat} {s' : Conn} :
      s.writeCb r w = some s' → Step s (.writeCb r w) s'
  | readDead {w : Option Nat} : s.dead = true → Step s (.readFail w) s
  | readFail {w : Option Nat} {c : CondVar Nat} : s.dead = false →
      s.sendComplete.signal w = some c →
      Step s (.readFail w) { s.unwatchAll with dead := true, sendComplete := c }
  | closeDead : s.dead = true → Step s .closeconn s
  | closeconn : s.dead = false → Step s .closeconn { s with dead := true, closing := true }
  | closeRemove : s.closing = true → Step s .closeRemove { s.unwatchAll with closing := false }
  | spuriousSlot {t : Nat} {c : CondVar Nat} : s.sendWait.wake t = some c →
      Step s (.spuriousSlot t) { s with sendWait := c }
  | spuriousComplete {t : Nat} {c : CondVar Nat} : s.sendComplete.wake t = some c →
      Step s (.spuriousComplete t) { s with sendComplete := c }

theorem step_inv {a : ConnAct} (h : s.step a = some s') : s.Step a s' := by
  cases a with
  | send t pdu r =>
      simp only [step] at h
      split at h
      · cases h
      · next hnew => exact .send (by simpa using hnew) h
  | resumeSlot t r =>
      simp only [step] at h
      obtain ⟨pdu, ht, h⟩ := withSender_inv h
      obtain ⟨c, hc, h⟩ := Option.bind_eq_some_iff.mp h
      exact .resumeSlot ht hc h
  | resumeComplete t =>
      simp only [step] at h
      obtain ⟨pdu, ht, h⟩ := withSender_inv h
      obtain ⟨c, hc, rfl⟩ := Option.map_eq_some_iff.mp h
      exact .resumeComplete ht hc
  | unwatch t =>
      simp only [step] at h
      obtain ⟨pdu, ht, h⟩ := withSender_inv h
      cases h
      exact .unwatch ht
  | removed t =>
      simp only [step] at h
      obtain ⟨pdu, ht, h⟩ := withSender_inv h
      cases h
      exact .removed ht
  | writeCb r w => exact .writeCb h
  | readFail w =>
      simp only [step, Conn.readFail] at h
      split at h
      · next hd =>
          cases h
          exact .readDead hd
      · next hd =>
          obtain ⟨c, hc, rfl⟩ := Option.map_eq_some_iff.mp h
          exact .readFail (by simpa using hd) hc
  | closeconn =>
      cases h
      unfold Conn.closeconn
      split
      · next hd => exact .closeDead hd
      · next hd => exact .closeconn (by simpa using hd)
  | closeRemove =>
      simp only [step] at h
      split at h
      · next hcl =>
          cases h
          exact .closeRemove hcl
      · cases h
  | spuriousSlot t =>
      obtain ⟨c, hc, rfl⟩ := Option.map_eq_some_iff.mp h
      exact .spuriousSlot hc
  | spuriousComplete t =>
      obtain ⟨c, hc, rfl⟩ := Option.map_eq_some_iff.mp h
      exact .spuriousComplete hc

end Conn

/-- A connection under any number of senders. -/
def connMachine : Machine Conn ConnAct where
  init := .init
  next := Conn.next

end RpcLock.Connection
