import RpcLock.Rpc.Message

/-!
# The classes `marshall` and `unmarshall`

A `marshall` is a buffer that grows, and a write position.  What `malloc` and
`realloc` leave in memory that was not written is a parameter, `junk`.  The
capacity is an `int`, so a step that would double it beyond that range fails, as
the `realloc` of the resulting size does.

An `unmarshall` is a buffer with a read position and the flag `_ok`.
-/

namespace RpcLock

structure ReqHeader where
  xid : Int32
  proc : Int32
  cltNonce : UInt32
  srvNonce : UInt32
  xidRep : Int32
deriving DecidableEq, Repr

structure ReplyHeader where
  xid : Int32
  ret : Int32
deriving DecidableEq, Repr

/-- `DEFAULT_RPC_SZ` -/
def defaultRpcSz : Nat := 1024

/-- `sizeof(rpc_sz_t)`: the bytes the channel fills with the size. -/
def rpcSzSize : Nat := 4

/-! ## `marshall` -/

structure Marshall where
  /-- The byte at an index of the buffer that was not written. -/
  junk : Nat → UInt8
  buf : List UInt8
  capa : Nat
  ind : Nat

namespace Marshall

/-- `marshall::marshall`. -/
def init (junk : Nat → UInt8) : Marshall where
  junk := junk
  buf := (List.range defaultRpcSz).map junk
  capa := defaultRpcSz
  ind := rpcHeaderSz

/-- `_capa` becomes `capa`, and `realloc` extends the buffer. -/
def grow (m : Marshall) (capa : Nat) : Option Marshall :=
  if capa < 2 ^ 31 then
    some { m with
      capa := capa
      buf := m.buf ++ (List.range' m.capa (capa - m.capa)).map m.junk }
  else none

/-- `_buf[_ind++] = x`. -/
def poke (m : Marshall) (x : UInt8) : Marshall :=
  { m with buf := m.buf.set m.ind x, ind := m.ind + 1 }

/-- `marshall::rawbyte`. -/
def rawbyte (m : Marshall) (x : UInt8) : Option Marshall :=
  if m.capa ≤ m.ind then (m.grow (2 * m.capa)).map (·.poke x) else some (m.poke x)

/-- `memcpy(_buf+_ind, p, n)`, and the step of `_ind`. -/
def copy (m : Marshall) (p : List UInt8) : Marshall :=
  { m with
    buf := m.buf.take m.ind ++ p ++ m.buf.drop (m.ind + p.length)
    ind := m.ind + p.length }

/-- `marshall::rawbytes`.  `_ind+n` is an `int`. -/
def rawbytes (m : Marshall) (p : List UInt8) : Option Marshall :=
  let n := p.length
  if 2 ^ 31 ≤ m.ind + n then none
  else if m.capa < m.ind + n then
    (m.grow (if n < m.capa then 2 * m.capa else m.capa + n)).map (·.copy p)
  else some (m.copy p)

/-- The bytes of a word from its highest on, `rawbyte((x >> 8*w) & 0xff)` each. -/
def putWord (m : Marshall) : Nat → Nat → Option Marshall
  | 0, _ => some m
  | w + 1, x => (m.rawbyte (UInt8.ofNat ((x >>> (8 * w)) &&& 0xff))).bind fun m => m.putWord w x

/-- `marshall::pack`. -/
def pack (m : Marshall) (x : Int32) : Option Marshall := m.putWord 4 x.toUInt32.toNat

/-- Pack the fields one after the other. -/
def packAll (m : Marshall) : List Int32 → Option Marshall
  | [] => some m
  | x :: xs => (m.pack x).bind fun m => m.packAll xs

/-- Pack the fields of a header behind the size, and return to the old position. -/
def packHeader (m : Marshall) (xs : List Int32) : Option Marshall :=
  (packAll { m with ind := rpcSzSize } xs).map fun m₁ => { m₁ with ind := m.ind }

end Marshall

/-- The fields of a header in the order they are packed. -/
def ReqHeader.fields (h : ReqHeader) : List Int32 :=
  [h.xid, h.proc, h.cltNonce.toInt32, h.srvNonce.toInt32, h.xidRep]

def ReplyHeader.fields (h : ReplyHeader) : List Int32 := [h.xid, h.ret]

namespace Marshall

def packReqHeader (m : Marshall) (h : ReqHeader) : Option Marshall := m.packHeader h.fields

def packReplyHeader (m : Marshall) (h : ReplyHeader) : Option Marshall := m.packHeader h.fields

end Marshall

/-! ## `unmarshall` -/

structure Unmarshall where
  buf : List UInt8
  sz : Nat
  ind : Nat
  ok : Bool
  /-- A copy went past the end of the buffer. -/
  overread : Bool
deriving DecidableEq, Repr

namespace Unmarshall

/-- `unmarshall::unmarshall(char *b, int sz)`. -/
def ofBuffer (b : List UInt8) (sz : Nat) : Unmarshall := ⟨b, sz, 0, true, false⟩

def okdone (u : Unmarshall) : Bool := u.ok && decide (u.ind = u.sz)

/-- A `char` converted to `unsigned int`: the sign is extended. -/
def signExtend (c : UInt8) : UInt32 := c.toInt8.toInt32.toUInt32

/-- `unmarshall::rawbyte`. -/
def rawbyte (u : Unmarshall) : UInt32 × Unmarshall :=
  if u.sz ≤ u.ind then (signExtend 0, { u with ok := false })
  else (signExtend (u.buf.getD u.ind 0), { u with ind := u.ind + 1 })

/-- `x = (rawbyte() & 0xff) << 8*w`, and `x |= ...` for the bytes that follow. -/
def getWord (u : Unmarshall) : Nat → Nat × Unmarshall
  | 0 => (0, u)
  | w + 1 =>
      let (b, u) := u.rawbyte
      let (x, u) := u.getWord w
      ((b &&& 0xff).toNat <<< (8 * w) ||| x, u)

/-- `unmarshall::unpack`. -/
def unpack (u : Unmarshall) : Int32 × Unmarshall :=
  let (x, u) := u.getWord 4
  ((UInt32.ofNat x).toInt32, u)

/-- The fields of a header, in the order they were packed. -/
def unpackReqFields (u : Unmarshall) : ReqHeader × Unmarshall :=
  let (xid, u) := u.unpack
  let (proc, u) := u.unpack
  let (cltNonce, u) := u.unpack
  let (srvNonce, u) := u.unpack
  let (xidRep, u) := u.unpack
  (⟨xid, proc, cltNonce.toUInt32, srvNonce.toUInt32, xidRep⟩, u)

def unpackReqHeader (u : Unmarshall) : ReqHeader × Unmarshall :=
  let (h, u) := unpackReqFields { u with ind := rpcSzSize }
  (h, { u with ind := rpcHeaderSz })

def unpackReplyFields (u : Unmarshall) : ReplyHeader × Unmarshall :=
  let (xid, u) := u.unpack
  let (ret, u) := u.unpack
  (⟨xid, ret⟩, u)

def unpackReplyHeader (u : Unmarshall) : ReplyHeader × Unmarshall :=
  let (h, u) := unpackReplyFields { u with ind := rpcSzSize }
  (h, { u with ind := rpcHeaderSz })

/-- `unmarshall::take_in`: this object and the other one after it gave its buffer
away. -/
def takeIn (u another : Unmarshall) : Unmarshall × Unmarshall :=
  ({ u with
      buf := another.buf
      sz := another.sz
      ind := rpcHeaderSz
      ok := decide (rpcHeaderSz ≤ another.sz) },
    { another with buf := [], sz := 0, ind := 0 })

/-- `unmarshall::rawbytes` into `ss`.  `_ind+n` is an `unsigned int`. -/
def rawbytes (u : Unmarshall) (ss : List UInt8) (n : UInt32) : List UInt8 × Unmarshall :=
  let next := (u.ind + n.toNat) % 2 ^ 32
  if u.sz < next then (ss, { u with ok := false })
  else
    let u := { u with overread := u.overread || decide (u.buf.length < u.ind + n.toNat) }
    ((u.buf.drop u.ind).take n.toNat, { u with ind := next })

end Unmarshall

end RpcLock
