import RpcLock.Library.BigEndian

/-!
# PDUs on a connection

A PDU is a buffer whose first four bytes are reserved for its size.  `writepdu`
puts the size there in network byte order, and `readpdu` reads it first.
-/

namespace RpcLock.Connection

/-- `MAX_PDU` -/
def maxPdu : Nat := 10 * 2 ^ 20

/-- A buffer for `send`, with room for the size and something behind it.  `sz` is
an `int`. -/
structure Pdu where
  bytes : List UInt8
  size_gt : 4 < bytes.length
  size_lt : bytes.length < 2 ^ 31
deriving DecidableEq, Repr

/-- `sz` -/
def Pdu.size (p : Pdu) : Nat := p.bytes.length

/-- A PDU that carries one byte. -/
def bytePdu (b : UInt8) : Pdu := ⟨[0, 0, 0, 0, b], by simp, by simp⟩

/-- `htonl(sz)` copied over the first four bytes of a buffer. -/
def putSize (sz : Nat) (buf : List UInt8) : List UInt8 := BigEndian.encode 4 sz ++ buf.drop 4

/-- The bytes of a PDU on the wire. -/
def Pdu.framed (p : Pdu) : List UInt8 := putSize p.size p.bytes

/-- The bytes of PDUs written one after the other. -/
def wire (ps : List Pdu) : List UInt8 := ps.flatMap Pdu.framed

@[simp] theorem Pdu.length_framed (p : Pdu) : p.framed.length = p.size := by
  have := p.size_gt
  simp only [framed, putSize, List.length_append, BigEndian.length_encode, List.length_drop, size]
  omega

/-- The size of a PDU can be read off its first four bytes. -/
theorem Pdu.decode_framed (p : Pdu) : BigEndian.decode (p.framed.take 4) = p.size := by
  have hlt : p.size < 256 ^ 4 := Nat.lt_trans p.size_lt (by decide)
  have htake : p.framed.take 4 = BigEndian.encode 4 p.size := by
    rw [framed, putSize, List.take_append_of_le_length (by simp)]
    exact List.take_of_length_le (by simp)
  rw [htake, BigEndian.decode_encode hlt]

/-- A buffer that differs from the PDU only in its first four bytes becomes the
PDU when the size is put there. -/
theorem putSize_of_drop_eq {p : Pdu} {buf : List UInt8} (h : buf.drop 4 = p.bytes.drop 4) :
    putSize p.size buf = p.framed := by
  rw [Pdu.framed, putSize, putSize, h]

theorem drop_framed (p : Pdu) : p.framed.drop 4 = p.bytes.drop 4 := by
  rw [Pdu.framed, putSize, List.drop_append_of_le_length (by simp)]
  simp

@[simp] theorem wire_nil : wire [] = [] := rfl
@[simp] theorem wire_cons (p : Pdu) (ps : List Pdu) : wire (p :: ps) = p.framed ++ wire ps := rfl
@[simp] theorem wire_append (ps qs : List Pdu) : wire (ps ++ qs) = wire ps ++ wire qs := by
  simp [wire]

end RpcLock.Connection
