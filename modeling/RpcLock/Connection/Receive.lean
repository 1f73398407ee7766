import RpcLock.Connection.Send

/-!
# `readpdu` and `read_cb`

The reading half of a connection.  `read_cb` runs on the poll thread under `m_`:
it reads what is missing of the current PDU, if something is, and offers a
complete PDU to `got_pdu`.  A refused PDU stays in `rpdu_` and is offered again.

The results of the two `read()` calls and the answer of `got_pdu` are chosen by
the label.  A `read()` that returns 0 leaves `errno` as it was, so the label says
whether that is `EAGAIN`.  The bytes the peer sends are fixed in advance, and
those not yet read are `stream`.

A buffer is the bytes that were read into it.  Its allocation has `sz + 4` bytes,
and reading past the end of it is the fault `overrun`.
-/

namespace RpcLock.Connection

/-- What `read()` returns. -/
inductive ReadResult where
  | got (n : Nat)
  | eof (again : Bool)
  | error (again : Bool)
deriving DecidableEq, Repr

/-- The read failed for good. -/
def ReadResult.fails : ReadResult → Bool
  | .got _ => false
  | .eof again | .error again => !again

/-- How the process stops. -/
inductive Fault where
  /-- A failed `VERIFY`. -/
  | verify
  /-- A write past the end of a buffer. -/
  | overrun
deriving DecidableEq, Repr

/-- The reading half of a connection. -/
structure Recv where
  dead : Bool
  rpdu : Charbuf
  fault : Option Fault
  /-- The bytes of the peer that are not read yet. -/
  stream : List UInt8
  /-- The PDUs `got_pdu` accepted. -/
  accepted : List (List UInt8)

inductive RecvAct where
  /-- `header` and `body` are the results of the reads, where they take place. -/
  | readCb (header body : ReadResult) (accept : Bool)
  /-- The connection dies elsewhere. -/
  | die
deriving DecidableEq, Repr

/-- `ntohl` of four bytes, as an `int`. -/
def ntohl (l : List UInt8) : Int := (UInt32.ofNat (BigEndian.decode l)).toInt32.toInt

namespace Recv

/-- A connection whose peer sends these bytes. -/
def init (bytes : List UInt8) : Recv where
  dead := false
  rpdu := .empty
  fault := none
  stream := bytes
  accepted := []

def stop (s : Recv) (f : Fault) : Recv := { s with fault := some f }

/-- The first half of `readpdu`: the size. -/
def readHeader (s : Recv) : ReadResult → Option (Recv × Bool)
  | .got n =>
      if 0 < n ∧ n ≤ 4 ∧ n ≤ s.stream.length then
        let s₁ := { s with stream := s.stream.drop n }
        let header := s.stream.take n
        let sz := ntohl header
        if n ≠ 4 then some (s₁, false)
        else if maxPdu < sz then some (s₁, false)
        -- VERIFY(rpdu_.buf == NULL)
        else if s.rpdu.buf.isSome then some (s₁.stop .verify, false)
        -- malloc(sz+sizeof(sz)) fails on the huge unsigned size
        else if sz + 4 < 0 then some (s₁.stop .verify, false)
        -- the allocation is smaller than the size field
        else if sz < 0 then some (s₁.stop .overrun, false)
        else some ({ s₁ with rpdu := ⟨some header, sz, 4⟩ }, true)
      else none
  | .eof _ => some (s, false)
  -- VERIFY(errno!=EAGAIN)
  | .error again => if again then some (s.stop .verify, false) else some (s, false)

/-- The count of the body read, converted to `size_t`. -/
def bodyCount (s : Recv) : Int :=
  if s.rpdu.solong ≤ s.rpdu.sz then s.rpdu.sz - s.rpdu.solong
  else s.rpdu.sz - s.rpdu.solong + 2 ^ 64

/-- The second half of `readpdu`. -/
def readBody (s : Recv) : ReadResult → Option (Recv × Bool)
  | .got n =>
      if 0 < n ∧ n ≤ s.bodyCount ∧ n ≤ s.stream.length then
        let s₁ := { s with stream := s.stream.drop n }
        if s.rpdu.sz + 4 < s.rpdu.solong + n then some (s₁.stop .overrun, false)
        else some ({ s₁ with
          rpdu := ⟨s.rpdu.buf.map (· ++ s.stream.take n), s.rpdu.sz, s.rpdu.solong + n⟩ }, true)
      else none
  | .eof again | .error again =>
      if again then some (s, true) else some ({ s with rpdu := .empty }, false)

/-- `connection::readpdu`. -/
def readpdu (s : Recv) (header body : ReadResult) : Option (Recv × Bool) :=
  if s.rpdu.sz = 0 then
    match s.readHeader header with
    | some (s₁, true) => s₁.readBody body
    | r => r
  else s.readBody body

/-- The end of `read_cb`: a complete PDU is offered. -/
def offer (s : Recv) (accept : Bool) : Recv :=
  match s.rpdu.buf with
  | none => s
  | some b =>
      if s.rpdu.sz = s.rpdu.solong ∧ accept = true then
        { s with rpdu := .empty, accepted := s.accepted ++ [b] }
      else s

@[simp] theorem offer_fault (s : Recv) (accept : Bool) : (s.offer accept).fault = s.fault := by
  unfold offer
  split
  · rfl
  · split <;> rfl

/-- Whether `read_cb` reads: no PDU waits to be offered again. -/
def reads (s : Recv) : Prop := s.rpdu.buf = none ∨ s.rpdu.solong < s.rpdu.sz

instance (s : Recv) : Decidable s.reads := inferInstanceAs (Decidable (_ ∨ _))

/-- `connection::read_cb`. -/
def readCb (s : Recv) (header body : ReadResult) (accept : Bool) : Option Recv :=
  if s.dead then some s
  else if s.reads then
    (s.readpdu header body).map fun (s₁, succ) =>
      if s₁.fault.isSome then s₁
      else if succ then s₁.offer accept
      else { s₁ with dead := true }.offer accept
  else some (s.offer accept)

/-- One step of the reading half. -/
def next (s : Recv) (a : RecvAct) : Option Recv :=
  if s.fault.isSome then none
  else match a with
    | .readCb header body accept => s.readCb header body accept
    | .die => some { s with dead := true }

end Recv

/-- The reading half of a connection whose peer sends these bytes. -/
def recvMachine (bytes : List UInt8) : Machine Recv RecvAct where
  init := .init bytes
  next := Recv.next

end RpcLock.Connection
