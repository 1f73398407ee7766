import RpcLock.LockServer.LockServer
import RpcLock.Marshall.Get

/-!
# The lock protocol

The procedure numbers, and the stubs of `call` and `reg` for the handlers of the
lock server: the arguments are the nonce of the client and the id of the lock,
and the result is an `int`.  The buffers are taken from `RPC_HEADER_SZ` on.
-/

namespace RpcLock

/-- A call of a `lock_client`. -/
inductive LockOp where
  | acquire
  | release
deriving DecidableEq, Repr

/-- `lock_protocol::rpc_numbers`. -/
def LockOp.proc : LockOp → UInt32
  | .acquire => 0x7001
  | .release => 0x7002

theorem LockOp.proc_injective : Function.Injective LockOp.proc := by
  intro a b h
  revert h
  cases a <;> cases b <;> decide

theorem LockOp.proc_ne_bind (op : LockOp) : op.proc ≠ RpcConst.bind := by
  cases op <;> decide

/-- `m << a1 << a2` in `rpcc::call`. -/
def lockArgs (id : UInt32) (lid : UInt64) : List UInt8 :=
  payload [⟨.uint, id⟩, ⟨.ulonglong, lid⟩]

/-- The arguments of a request. -/
def argsOf (args : List UInt8) : Unmarshall := .ofBuffer args args.length

/-- `args >> a1`, `args >> a2` and the test of `okdone` in the stub of `reg`. -/
def readLockArgs (args : List UInt8) : Option (Int32 × UInt64) :=
  let (clt, u) := (argsOf args).getInt
  let (lid, u) := u.getULongLong
  if u.okdone then some (clt, lid) else none

/-- `ret << r` in the stub of `reg`. -/
def resultBytes (r : Int32) : List UInt8 := payload [⟨.int, r⟩]

/-- `u >> r` and the test of `okdone` in `call_m`. -/
def readResult (out : List UInt8) : Option Int32 :=
  let (r, u) := (argsOf out).getInt
  if u.okdone then some r else none

theorem okdone_end {args : List UInt8} : ((argsOf args).advance args.length).okdone = true := by
  show (true && decide (0 + args.length = args.length)) = true
  simp

/-- The stub of the server reads what the client wrote. -/
theorem readLockArgs_lockArgs (id : UInt32) (lid : UInt64) :
    readLockArgs (lockArgs id lid) = some (id.toInt32, lid) := by
  have hbytes : lockArgs id lid =
      BigEndian.encode 4 id.toInt32.toUInt32.toNat ++ BigEndian.encode 8 lid.toNat := by
    simp [lockArgs, payload, enc]
  have hlen : (lockArgs id lid).length = 12 := by simp [hbytes]
  have hready : (argsOf (lockArgs id lid)).Ready :=
    ⟨rfl, le_rfl, show (lockArgs id lid).length < 2 ^ 31 by rw [hlen]; decide⟩
  obtain ⟨h₁, hu₁, hb₁⟩ := (Unmarshall.yields_getInt id.toInt32).run hready
    (show (lockArgs id lid).drop 0 = _ from hbytes)
    (show 0 + _ ≤ (lockArgs id lid).length by simp [hlen])
  have h₂ := Unmarshall.yields_getULongLong lid _ [] hu₁ (by rw [hb₁, List.append_nil])
    (show 0 + _ + _ ≤ (lockArgs id lid).length by simp [hlen])
  have hend := @okdone_end (lockArgs id lid)
  rw [hlen] at hend
  simp only [BigEndian.length_encode] at h₁ h₂
  rw [Unmarshall.advance_advance] at h₂
  simp only [readLockArgs, h₁, h₂, hend, if_true]

theorem readResult_resultBytes (r : Int32) : readResult (resultBytes r) = some r := by
  have hbytes : resultBytes r = BigEndian.encode 4 r.toUInt32.toNat := by
    simp [resultBytes, payload, enc]
  have hlen : (resultBytes r).length = 4 := by simp [hbytes]
  have hready : (argsOf (resultBytes r)).Ready :=
    ⟨rfl, le_rfl, show (resultBytes r).length < 2 ^ 31 by rw [hlen]; decide⟩
  have h₁ := Unmarshall.yields_getInt r _ [] hready
    (show (resultBytes r).drop 0 = _ by rw [List.append_nil]; exact hbytes)
    (show 0 + _ ≤ (resultBytes r).length by simp [hlen])
  have hend := @okdone_end (resultBytes r)
  rw [hlen] at hend
  simp only [BigEndian.length_encode] at h₁
  simp only [readResult, h₁, hend, if_true]

end RpcLock
