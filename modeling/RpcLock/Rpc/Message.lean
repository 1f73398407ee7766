import RpcLock.Library.BigEndian
import RpcLock.Library.WordOrder

/-!
# Requests and replies

The messages `rpcc` and `rpcs` exchange, after `unpack_req_header` and
`unpack_reply_header`.  The `int` fields `xid`, `proc` and `xid_rep` carry
`unsigned int` values through unchanged bits, and both ends convert them back,
so they are kept as 32-bit words here.  `ret` is a number.
-/

namespace RpcLock

/-! ## `rpc_const` -/

namespace RpcConst

/-- The handler number reserved for bind. -/
def bind : UInt32 := 1
def timeoutFailure : Int := -1
def unmarshalArgsFailure : Int := -2
def unmarshalReplyFailure : Int := -3
def atmostonceFailure : Int := -4
def oldsrvFailure : Int := -5
def bindFailure : Int := -6
def cancelFailure : Int := -7

end RpcConst

/-- `RPC_HEADER_SZ`: the larger of the two headers and the 4-byte size. -/
def rpcHeaderSz : Nat := max 20 8 + 4

/-- A `char *` returned by `malloc`. -/
abbrev Ptr := Nat

/-- A `connection *`. -/
abbrev ConnId := Nat

/-- A request PDU: `req_header` and the marshalled arguments. -/
structure Request where
  xid : UInt32
  proc : UInt32
  cltNonce : UInt32
  srvNonce : UInt32
  xidRep : UInt32
  /-- The bytes from `RPC_HEADER_SZ` on. -/
  args : List UInt8
deriving DecidableEq, Repr

/-- A reply PDU: `reply_header` and the marshalled result. -/
structure Reply where
  xid : UInt32
  ret : Int
  /-- The bytes from `RPC_HEADER_SZ` on. -/
  payload : List UInt8
deriving DecidableEq, Repr

/-- The size of a reply PDU, `_ind` after the result was marshalled. -/
def Reply.size (r : Reply) : Nat := rpcHeaderSz + r.payload.length

/-! ## The result of `rpcbind` -/

/-- `ret << r` in the stub of `rpcbind`: the four bytes of the nonce. -/
def bindPayload (nonce : UInt32) : List UInt8 := BigEndian.encode 4 nonce.toNat

/-- `u >> r` and `okdone` in `call_m`, for the `int` result of `bind`. -/
def readNonce (payload : List UInt8) : Option UInt32 :=
  if payload.length = 4 then some (UInt32.ofNat (BigEndian.decode payload)) else none

@[simp] theorem readNonce_bindPayload (nonce : UInt32) :
    readNonce (bindPayload nonce) = some nonce := by
  have h : BigEndian.decode (bindPayload nonce) = nonce.toNat :=
    BigEndian.decode_encode nonce.toNat_lt
  simp only [readNonce, h]
  simp [bindPayload]

end RpcLock
