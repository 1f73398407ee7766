import RpcLock.Connection.ReadBuffer

/-!
# A peer that closes

`read()` returns 0 at the end of the stream and leaves `errno` alone.  The body
read of `readpdu` looks at `errno` after such a return, so what it does depends
on an earlier call of the poll thread, on this connection or on another one.

`Polled` adds to the reading half what that involves: the `errno` of the poll
thread, the callbacks of the connection, and the signals of `send_complete_`.
-/

namespace RpcLock.Connection

/-- A connection as its poll thread sees it. -/
structure Polled where
  recv : Recv
  /-- Whether `errno` is `EAGAIN`. -/
  again : Bool
  /-- Whether `PollMgr` has callbacks for `fd_`. -/
  callbacks : Bool
  /-- How often `read_cb` signalled `send_complete_`. -/
  signals : Nat
  /-- The peer has closed, and what it sent is read. -/
  closed : Bool

inductive PollAct where
  | readCb (header body : ReadResult) (accept : Bool)
  /-- Another call of the poll thread leaves its `errno`. -/
  | otherCall (again : Bool)
  | close
  /-- The connection dies elsewhere. -/
  | die
deriving DecidableEq, Repr

/-- A read that returns 0 leaves `errno`. -/
def ReadResult.KeepsErrno (again : Bool) : ReadResult → Prop
  | .eof b => b = again
  | _ => True

instance (again : Bool) (r : ReadResult) : Decidable (r.KeepsErrno again) := by
  cases r <;> unfold ReadResult.KeepsErrno <;> infer_instance

/-- `errno` after a read. -/
def ReadResult.errno (again : Bool) : ReadResult → Bool
  | .error b => b
  | _ => again

namespace Polled

def init (bytes : List UInt8) : Polled where
  recv := .init bytes
  again := false
  callbacks := true
  signals := 0
  closed := false

/-- The results the reads of a `read_cb` can have. -/
def CanRead (p : Polled) (header body : ReadResult) : Prop :=
  (header.KeepsErrno p.again ∧ body.KeepsErrno p.again) ∧
    (p.closed = true → header = .eof p.again ∧ body = .eof p.again)

instance (p : Polled) (header body : ReadResult) : Decidable (p.CanRead header body) :=
  inferInstanceAs (Decidable (_ ∧ _))

/-- `errno` after a `read_cb`: what its last read left. -/
def errnoAfter (p : Polled) (header body : ReadResult) (accept : Bool) : Bool :=
  if (p.recv.atBodyRead (.readCb header body accept)).isSome then body.errno p.again
  else if p.recv.dead = false ∧ p.recv.reads ∧ p.recv.rpdu.sz = 0 then header.errno p.again
  else p.again

/-- `read_cb` is the only function here that marks the connection dead, removes
its callbacks and signals `send_complete_`, all three together. -/
def afterReadCb (p : Polled) (header body : ReadResult) (accept : Bool) (s' : Recv) : Polled where
  recv := s'
  again := p.errnoAfter header body accept
  callbacks := if s'.dead = true ∧ p.recv.dead = false then false else p.callbacks
  signals := if s'.dead = true ∧ p.recv.dead = false then p.signals + 1 else p.signals
  closed := p.closed

def next (p : Polled) : PollAct → Option Polled
  | .readCb header body accept =>
      if p.CanRead header body then
        (p.recv.next (.readCb header body accept)).map (p.afterReadCb header body accept)
      else none
  | .otherCall again => some { p with again }
  | .close => some { p with closed := true }
  | .die => (p.recv.next .die).map fun s' => { p with recv := s', callbacks := false }

/-- The connection is marked dead, its callbacks are removed, and `send_complete_`
is signalled. -/
def Detected (p p' : Polled) : Prop :=
  p'.recv.dead = true ∧ p'.callbacks = false ∧ p'.signals = p.signals + 1

/-- The PDU in `rpdu_` is complete. -/
def Complete (p : Polled) : Prop :=
  p.recv.rpdu.buf.isSome ∧ p.recv.rpdu.sz = p.recv.rpdu.solong

end Polled

/-- A connection on its poll thread, for a peer that sends these bytes. -/
def pollMachine (bytes : List UInt8) : Machine Polled PollAct where
  init := .init bytes
  next := Polled.next

/-! ## An empty buffer or one with its size field -/

namespace Recv

/-- `rpdu_` is empty, or holds at least a size field. -/
def Filled (s : Recv) : Prop := s.rpdu = .empty ∨ s.rpdu.buf.isSome ∧ 4 ≤ s.rpdu.solong

variable {s s' s₁ : Recv} {r header body : ReadResult} {accept ok : Bool}

theorem Filled.offer (h : s.Filled) (accept : Bool) : (s.offer accept).Filled := by
  rcases offer_rpdu s accept with he | he
  · exact .inl he
  · unfold Filled
    rw [he]
    exact h

theorem Filled.finish (h : s.Filled) (ok accept : Bool) : (s.finish ok accept).Filled := by
  unfold Recv.finish
  split
  · exact h
  · split
    · exact h.offer accept
    · exact Filled.offer (s := { s with dead := true }) h accept

theorem filled_readBody (hbuf : s.rpdu.buf.isSome) (h4 : 4 ≤ s.rpdu.solong)
    (h : s.readBody r = some (s₁, ok)) : s₁.Filled := by
  cases r with
  | got n =>
      simp only [readBody] at h
      split at h
      · split at h
        · cases h
          exact .inr ⟨hbuf, h4⟩
        · cases h
          refine .inr ⟨by simpa using hbuf, ?_⟩
          show 4 ≤ s.rpdu.solong + n
          omega
      · cases h
  | eof again | error again =>
      simp only [readBody] at h
      split at h
      · cases h
        exact .inr ⟨hbuf, h4⟩
      · cases h
        exact .inl rfl

theorem filled_readpdu (hs : s.Filled) (hr : s.reads) (h : s.readpdu header body = some (s₁, ok)) :
    s₁.Filled := by
  unfold readpdu at h
  rcases hs with he | ⟨hbuf, h4⟩
  · rw [if_pos (by rw [he]; rfl)] at h
    cases hh : s.readHeader header with
    | none => simp [hh] at h
    | some p =>
        obtain ⟨s₂, ok₂⟩ := p
        rcases readHeader_cases he hh with ⟨he₂, rfl, -⟩ | ⟨-, -, -, hneg | hpos⟩
        · simp only [hh, Option.some.injEq, Prod.mk.injEq] at h
          exact .inl (h.1 ▸ he₂)
        · obtain ⟨-, rfl, -, he₂⟩ := hneg
          simp only [hh, Option.some.injEq, Prod.mk.injEq] at h
          exact .inl (h.1 ▸ he₂)
        · obtain ⟨-, rfl, -, hrp⟩ := hpos
          simp only [hh] at h
          exact filled_readBody (by rw [hrp]; rfl) (by rw [hrp]) h
  · have hsz : s.rpdu.sz ≠ 0 := by
      rcases hr with hb | hlt
      · simp [hb] at hbuf
      · omega
    rw [if_neg hsz] at h
    exact filled_readBody hbuf h4 h

theorem filled_next {a : RecvAct} (hs : s.Filled) (h : s.next a = some s') : s'.Filled := by
  unfold Recv.next at h
  split at h
  · cases h
  · cases a with
    | die =>
        cases h
        exact hs
    | readCb header body accept =>
        rcases readCb_cases h with ⟨-, rfl⟩ | ⟨-, -, rfl⟩ | ⟨-, hr, s₁, ok, hp, rfl⟩
        · exact hs
        · exact hs.offer accept
        · exact (filled_readpdu hs hr hp).finish ok accept

end Recv

namespace Polled

open Recv

variable {bytes : List UInt8} {p p' : Polled} {header body : ReadResult} {accept : Bool}

theorem filled_of_reachable (h : (pollMachine bytes).Reachable p) : p.recv.Filled := by
  refine h.invariant (P := fun p => p.recv.Filled) (.inl rfl) ?_
  intro p p' a hp hn
  change p.next a = some p' at hn
  cases a with
  | readCb header body accept =>
      simp only [next] at hn
      split at hn
      · obtain ⟨s', hs', rfl⟩ := Option.map_eq_some_iff.mp hn
        exact filled_next hp hs'
      · cases hn
  | otherCall again =>
      cases hn
      exact hp
  | close =>
      cases hn
      exact hp
  | die =>
      obtain ⟨s', hs', rfl⟩ := Option.map_eq_some_iff.mp hn
      exact filled_next hp hs'

/-! ## After the peer has closed -/

theorem readCb_inv (hn : p.next (.readCb header body accept) = some p') :
    p.CanRead header body ∧ p.recv.fault = none ∧ ∃ s', p.recv.readCb header body accept = some s' ∧
      p' = p.afterReadCb header body accept s' := by
  simp only [next] at hn
  split at hn
  · next hc =>
      obtain ⟨s', hs', rfl⟩ := Option.map_eq_some_iff.mp hn
      unfold Recv.next at hs'
      split at hs'
      · cases hs'
      · next hf => exact ⟨hc, by simpa using hf, s', hs', rfl⟩
  · cases hn

/-- A `read_cb` that leaves the reading half as it is leaves everything. -/
theorem unchanged (hlive : p.recv.dead = false)
    (he : p.errnoAfter header body accept = p.again) :
    p.afterReadCb header body accept p.recv = p := by
  unfold afterReadCb
  rw [he, if_neg (by simp [hlive]), if_neg (by simp [hlive])]

theorem errnoAfter_eof (p : Polled) (accept : Bool) :
    p.errnoAfter (.eof p.again) (.eof p.again) accept = p.again := by
  unfold errnoAfter
  split
  · rfl
  · split <;> rfl

theorem not_detected_self (p : Polled) : ¬ p.Detected p := by
  rintro ⟨-, -, h⟩
  omega

/-- A `read_cb` whose `readpdu` fails is detected. -/
theorem detected_of_dead {s' : Recv} (hlive : p.recv.dead = false) (hdead : s'.dead = true) :
    p.Detected (p.afterReadCb header body accept s') := by
  refine ⟨hdead, ?_, ?_⟩
  · exact if_pos ⟨hdead, hlive⟩
  · exact if_pos ⟨hdead, hlive⟩

theorem offer_of_incomplete {s : Recv} (h : ¬ (s.rpdu.buf.isSome ∧ s.rpdu.sz = s.rpdu.solong))
    (accept : Bool) : s.offer accept = s := by
  unfold offer
  cases hb : s.rpdu.buf with
  | none => rfl
  | some b => exact if_neg fun hc => h ⟨by rw [hb]; rfl, hc.1⟩

/-- What `read_cb` does at the end of the stream, where `again` is about the
`errno` of an earlier call. -/
theorem readCb_eof {s : Recv} (hlive : s.dead = false) (hfault : s.fault = none) (hreads : s.reads)
    (again accept : Bool) : s.readCb (.eof again) (.eof again) accept = some (
      if s.rpdu.sz = 0 then { s with dead := true }.offer accept
      else if again then s.offer accept
      else { s with rpdu := .empty, dead := true }.offer accept) := by
  by_cases hsz : s.rpdu.sz = 0
  · simp [readCb, readpdu, readHeader, hlive, hreads, hfault, hsz]
  · cases again <;> simp [readCb, readpdu, readBody, hlive, hreads, hfault, hsz]

/-- Once the peer has closed, a `read_cb` of a live connection whose PDU is not
complete marks it dead exactly if `rpdu_` is empty, or a body is missing and
`errno` is not `EAGAIN`.  Otherwise nothing changes at all. -/
theorem close_detected_iff (h : (pollMachine bytes).Reachable p) (hclosed : p.closed = true)
    (hlive : p.recv.dead = false) (hinc : ¬ p.Complete)
    (hn : p.next (.readCb header body accept) = some p') :
    (p.Detected p' ↔ p.recv.rpdu.buf = none ∨
      p.recv.rpdu.solong < p.recv.rpdu.sz ∧ p.again = false) ∧ (¬ p.Detected p' → p' = p) := by
  obtain ⟨⟨-, hres⟩, hfault, s', hs', rfl⟩ := readCb_inv hn
  obtain ⟨rfl, rfl⟩ := hres hclosed
  have heq := errnoAfter_eof p accept
  have hcb : p.recv.readCb (.eof p.again) (.eof p.again) accept = some s' := hs'
  -- the three places `read_cb` can be in: no buffer, part way, or past the size
  rcases filled_of_reachable h with he | ⟨hbuf, h4⟩
  · have hdead : s'.dead = true := by
      have hreads : p.recv.reads := .inl (by rw [he]; rfl)
      have hsz : p.recv.rpdu.sz = 0 := by rw [he]; rfl
      rw [readCb_eof hlive hfault hreads, if_pos hsz,
        offer_of_incomplete (by simp [he, Charbuf.empty]), Option.some.injEq] at hcb
      rw [← hcb]
    have hdet : p.Detected (p.afterReadCb (.eof p.again) (.eof p.again) accept s') :=
      detected_of_dead hlive hdead
    exact ⟨iff_of_true hdet (.inl (by rw [he]; rfl)), fun hno => absurd hdet hno⟩
  · have hsome : p.recv.rpdu.buf ≠ none := by
      intro hb
      simp [hb] at hbuf
    by_cases hlt : p.recv.rpdu.solong < p.recv.rpdu.sz
    · have hreads : p.recv.reads := .inr hlt
      have hsz : p.recv.rpdu.sz ≠ 0 := by omega
      rw [readCb_eof hlive hfault hreads, if_neg hsz, Option.some.injEq] at hcb
      cases hag : p.again with
      | true =>
          rw [hag] at hcb heq
          rw [if_pos rfl, offer_of_incomplete hinc] at hcb
          subst hcb
          have hsame := unchanged hlive (heq.trans hag.symm)
          rw [hsame]
          refine ⟨iff_of_false (not_detected_self p) ?_, fun _ => rfl⟩
          simp [hsome]
      | false =>
          rw [hag, if_neg Bool.false_ne_true, offer_of_incomplete (by simp [Charbuf.empty])] at hcb
          have hdead : s'.dead = true := by rw [← hcb]
          have hdet : p.Detected (p.afterReadCb (.eof false) (.eof false) accept s') :=
            detected_of_dead hlive hdead
          exact ⟨iff_of_true hdet (.inr ⟨hlt, rfl⟩), fun hno => absurd hdet hno⟩
    · have hreads : ¬ p.recv.reads := fun hr => hr.elim hsome hlt
      simp only [readCb, hlive, hreads, if_false, Bool.false_eq_true, Option.some.injEq] at hcb
      rw [offer_of_incomplete hinc] at hcb
      subst hcb
      rw [unchanged hlive heq]
      exact ⟨iff_of_false (not_detected_self p) (by simp [hsome, hlt]), fun _ => rfl⟩

/-- Half of a PDU arrives, nothing else is there, and the peer closes. -/
def halfPdu : List PollAct :=
  [.readCb (.got 4) (.got 1) true, .readCb (.got 4) (.error true) true, .close]

/-- Another call of the poll thread leaves a different `errno`, and the close is
detected. -/
theorem close_detected_iff_otherCall :
    ∃ p p', (pollMachine [0, 0, 0, 6, 7]).Reachable p ∧ p.closed = true ∧
      p.next (.readCb (.eof false) (.eof false) true) = some p' ∧ p.Detected p' := by
  obtain ⟨p, hp, hq⟩ := Machine.exists_reachable_of_run (M := pollMachine [0, 0, 0, 6, 7])
    (p := fun p => decide (p.closed = true ∧ p.recv.dead = false ∧ p.again = false ∧
      p.recv.rpdu = ⟨some [0, 0, 0, 6, 7], 6, 5⟩) &&
        (p.next (.readCb (.eof false) (.eof false) true)).isSome)
    (halfPdu ++ [.otherCall false]) (by decide)
  obtain ⟨hl, hr⟩ := Bool.and_eq_true_iff.mp hq
  obtain ⟨hclosed, hlive, hag, hrp⟩ := of_decide_eq_true hl
  obtain ⟨p', hn⟩ := Option.isSome_iff_exists.mp hr
  have hinc : ¬ p.Complete := by
    rintro ⟨-, he⟩
    rw [hrp] at he
    exact absurd he (by decide)
  refine ⟨p, p', hp, hclosed, hn, (close_detected_iff hp hclosed hlive hinc hn).1.mpr ?_⟩
  exact .inr ⟨by rw [hrp]; decide, hag⟩

/-- With the `EAGAIN` of the last body read still in `errno`, the close goes
unnoticed. -/
theorem close_unnoticed :
    ∃ p p', (pollMachine [0, 0, 0, 6, 7]).Reachable p ∧ p.closed = true ∧ p.recv.dead = false ∧
      ¬ p.Complete ∧ p.next (.readCb (.eof true) (.eof true) true) = some p' ∧
      ¬ p.Detected p' := by
  obtain ⟨p, hp, hq⟩ := Machine.exists_reachable_of_run (M := pollMachine [0, 0, 0, 6, 7])
    (p := fun p => decide (p.closed = true ∧ p.recv.dead = false ∧
      p.recv.rpdu = ⟨some [0, 0, 0, 6, 7], 6, 5⟩) &&
        (p.next (.readCb (.eof true) (.eof true) true)).any fun p' => !p'.recv.dead)
    halfPdu (by decide)
  obtain ⟨hl, hr⟩ := Bool.and_eq_true_iff.mp hq
  obtain ⟨hclosed, hlive, hrp⟩ := of_decide_eq_true hl
  obtain ⟨p', hn, hdead⟩ := (Option.any_eq_true _ _).mp hr
  refine ⟨p, p', hp, hclosed, hlive, ?_, hn, ?_⟩
  · rintro ⟨-, he⟩
    rw [hrp] at he
    exact absurd he (by decide)
  · rintro ⟨hd, -, -⟩
    simp [hd] at hdead

end Polled

end RpcLock.Connection
