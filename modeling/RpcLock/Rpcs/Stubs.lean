import RpcLock.Marshall.Accept

/-!
# Handler stubs

`rpcs::reg` wraps a method in a handler that extracts the arguments one after
the other, tests `okdone` once at the end, and calls the method.  A failed
extraction does not stop the ones behind it, but the flag is sticky, so the
single test accepts exactly the payloads that encode a tuple of the signature.
-/

namespace RpcLock.Rpcs

/-- The argument types of a method that `reg` takes: one to seven of them. -/
structure Signature where
  args : List Ty
  one_le : 1 ≤ args.length
  le_seven : args.length ≤ 7
  isArg : ∀ t ∈ args, t.isArg = true

/-- `h1::fn` for a method with the result type `R`: the calls of the method, and
what is returned with `ret`. -/
def Signature.fn (sig : Signature) (R : Ty) (meth : List Value → Int × R.den)
    (args : Unmarshall) (ret : Marshall) : List (List Value) × Option (Int × Marshall) :=
  let (vs, u) := Unmarshall.getAll sig.args args
  if u.okdone then
    let (b, r) := meth vs
    ([vs], (Marshall.put R ret r).map fun m => (b, m))
  else ([], some (RpcConst.unmarshalArgsFailure, ret))

/-- The object `dispatch` hands to the handler: a request with the header bytes
`c` unpacked and the payload `p` behind the cursor. -/
def requestArgs (c p : List UInt8) : Unmarshall :=
  (Unmarshall.ofBuffer (c ++ p) (c ++ p).length).unpackReqHeader.2

variable {c p : List UInt8} {sig : Signature} {R : Ty} {meth : List Value → Int × R.den}

/-- A header that is all there leaves the cursor behind it. -/
theorem requestArgs_eq (hc : c.length = rpcHeaderSz) (p : List UInt8) :
    requestArgs c p = ⟨c ++ p, (c ++ p).length, rpcHeaderSz, true, false⟩ := by
  have hsz : 24 ≤ (c ++ p).length := by
    rw [List.length_append, hc]
    exact Nat.le_add_right _ _
  have hunpack : ∀ i, i + 4 ≤ (c ++ p).length →
      (⟨c ++ p, (c ++ p).length, i, true, false⟩ : Unmarshall).unpack.2 =
        ⟨c ++ p, (c ++ p).length, i + 4, true, false⟩ := fun i h =>
    @Unmarshall.getWord_snd ⟨c ++ p, (c ++ p).length, i, true, false⟩ 4 h
  unfold requestArgs Unmarshall.unpackReqHeader Unmarshall.unpackReqFields
  simp only [Unmarshall.ofBuffer, rpcSzSize]
  rw [hunpack 4 (by omega), hunpack 8 (by omega), hunpack 12 (by omega), hunpack 16 (by omega),
    hunpack 20 (by omega)]

/-- The method is called at most once, and exactly if the test passes. -/
theorem fn_calls (args : Unmarshall) (ret : Marshall) (vs : List Value) :
    (sig.fn R meth args ret).1 = [vs] ↔
      (Unmarshall.getAll sig.args args).2.okdone = true ∧
        (Unmarshall.getAll sig.args args).1 = vs := by
  unfold Signature.fn
  dsimp only
  split
  · rename_i hdone
    simp [hdone]
  · rename_i hdone
    simp [hdone]

/-- For every signature and payload whose string lengths do not wrap, the stub
calls its method exactly if the payload is the encoding of a tuple of the
signature, with that one tuple.  Otherwise it answers
`unmarshal_args_failure`.  After a failed extraction `okdone` stays false. -/
theorem stub_accepts (sig : Signature) (R : Ty) (meth : List Value → Int × R.den)
    (ret : Marshall) (hc : c.length = rpcHeaderSz) (hp : p.length ≤ Connection.maxPdu)
    (hw : ∀ q ∈ Unmarshall.traceAll sig.args (requestArgs c p), q.2.NoWrap q.1) :
    (∀ vs, (sig.fn R meth (requestArgs c p) ret).1 = [vs] ↔
      vs.map Sigma.fst = sig.args ∧ payload vs = p) ∧
    (∀ vs ws : List Value, vs.map Sigma.fst = sig.args → payload vs = p →
      ws.map Sigma.fst = sig.args → payload ws = p → vs = ws) ∧
    ((¬ ∃ vs : List Value, vs.map Sigma.fst = sig.args ∧ payload vs = p) →
      sig.fn R meth (requestArgs c p) ret = ([], some (RpcConst.unmarshalArgsFailure, ret))) ∧
    ∀ (u : Unmarshall) (ts : List Ty), u.ok = false →
      (Unmarshall.getAll ts u).2.okdone = false := by
  have hmax : Connection.maxPdu + 24 < 2 ^ 31 := by decide
  have hlen : (c ++ p).length = 24 + p.length := by
    rw [List.length_append, hc]
    rfl
  have hready : (requestArgs c p).Ready := by
    rw [requestArgs_eq hc]
    exact ⟨rfl, le_rfl, by dsimp only; omega⟩
  have hbuf : (requestArgs c p).buf.drop (requestArgs c p).ind = p := by
    rw [requestArgs_eq hc, ← hc]
    exact List.drop_left
  have hend : (requestArgs c p).ind + p.length = (requestArgs c p).sz := by
    rw [requestArgs_eq hc]
    exact hlen.symm
  have hiff : ∀ vs, (sig.fn R meth (requestArgs c p) ret).1 = [vs] ↔
      vs.map Sigma.fst = sig.args ∧ payload vs = p := fun vs =>
    (fn_calls _ _ _).trans (Unmarshall.okdone_iff hready hbuf hend sig.isArg hw vs)
  refine ⟨hiff, fun vs ws hvs hpv hws hpw => ?_, fun hno => ?_,
    fun u ts hu => Unmarshall.okdone_of_failed hu ts⟩
  · have hcalls := ((hiff vs).mpr ⟨hvs, hpv⟩).symm.trans ((hiff ws).mpr ⟨hws, hpw⟩)
    exact (List.cons.inj hcalls).1
  · have hdone : (Unmarshall.getAll sig.args (requestArgs c p)).2.okdone ≠ true := by
      intro hd
      exact hno ⟨_, (hiff _).mp ((fn_calls _ _ _).mpr ⟨hd, rfl⟩)⟩
    unfold Signature.fn
    dsimp only
    rw [if_neg hdone]

/-- A method of an `int` and a string. -/
def intString : Signature := ⟨[.int, .string], by decide, by decide, by decide⟩

/-- The payload of the arguments 7 and "ab". -/
def sevenAb : List UInt8 := [0, 0, 0, 7, 0, 0, 0, 2, 97, 98]

theorem stub_accepts_sevenAb :
    (intString.fn .int (fun _ => (0, (0 : Int32))) (requestArgs (List.replicate 24 0) sevenAb)
      (.init fun _ => 0)).1 = [[⟨.int, (7 : Int32)⟩, ⟨.string, ([97, 98] : StdString)⟩]] :=
  ((stub_accepts intString .int (fun _ => (0, (0 : Int32))) (.init fun _ => 0)
    (c := List.replicate 24 0) (p := sevenAb) rfl (by decide) (by decide)).1 _).mpr ⟨rfl, rfl⟩

end RpcLock.Rpcs
