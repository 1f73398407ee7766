import RpcLock.Marshall.RoundTrip
import RpcLock.Marshall.Target
import RpcLock.Rpcs.Stubs

/-!
# Methods and their callers

A server program registers one method for each procedure number, and `rpcc::call`
is instantiated with the types of its arguments and of its result variable.  If
these are the types of the method, then the stub of the method reads the arguments
the caller has marshalled, and `call_m` reads the result the method has left.
-/

namespace RpcLock.Rpcs

/-- A method that is given to `reg`. -/
structure Method where
  sig : Signature
  result : Ty

/-- `rpcs::rpcbind` -/
def rpcbind : Method where
  sig := ⟨[.int], by decide, by decide, by decide⟩
  result := .int

/-- The methods of a server program.  The constructor registers `rpcbind`. -/
structure Service where
  method : UInt32 → Option Method
  bind : method RpcConst.bind = some rpcbind

/-- The bytes fit into a `marshall`, with the header. -/
def Fits (bs : List UInt8) : Prop := rpcHeaderSz + bs.length ≤ 2 ^ 30

instance (bs : List UInt8) : Decidable (Fits bs) :=
  inferInstanceAs (Decidable (rpcHeaderSz + bs.length ≤ 2 ^ 30))

/-- The unmarshaller `call1` leaves in `rep`: the PDU that `got_pdu` took in, with
the header bytes `c`, or the one it was given. -/
def replyResult (c : List UInt8) : Option Reply → Unmarshall
  | none => ⟨[], 0, 0, false, false⟩
  | some r =>
      let rep := (Unmarshall.ofBuffer (c ++ r.payload) (c ++ r.payload).length).unpackReplyHeader.2
      ((⟨[], 0, 0, false, false⟩ : Unmarshall).takeIn rep).1

variable {bs : List UInt8}

/-- What a chain of writes leaves behind the header of a fresh `marshall`. -/
theorem drop_header_of_appends {f : Marshall → Option Marshall} (hf : Marshall.Appends f bs)
    (hfit : Fits bs) (junk : Nat → UInt8) :
    ∃ m, f (.init junk) = some m ∧ m.content.drop rpcHeaderSz = bs := by
  have hwf := Marshall.wf_init junk
  obtain ⟨m, hm, happ⟩ := hf _ hwf hfit
  have hlen : (Marshall.init junk).content.length = rpcHeaderSz := hwf.length_content
  refine ⟨m, hm, ?_⟩
  rw [happ.content, ← hlen, List.drop_left]

/-- The arguments a caller marshals. -/
theorem putAll_fresh {vs : List Value} (hfit : Fits (payload vs)) (junk : Nat → UInt8) :
    ∃ m, (Marshall.init junk).putAll vs = some m ∧ m.content.drop rpcHeaderSz = payload vs :=
  drop_header_of_appends (Marshall.appends_putAll vs) hfit junk

/-- The result a stub marshals. -/
theorem put_fresh {R : Ty} {r : R.den} (hfit : Fits (enc R r)) (junk : Nat → UInt8) :
    ∃ m, Marshall.put R (.init junk) r = some m ∧ m.content.drop rpcHeaderSz = enc R r :=
  drop_header_of_appends (Marshall.appends_put R r) hfit junk

variable {c : List UInt8}

/-- A message that fits is ready to be read behind its header. -/
theorem ready_of_fits (hc : c.length = rpcHeaderSz) (hfit : Fits bs) :
    (⟨c ++ bs, (c ++ bs).length, rpcHeaderSz, true, false⟩ : Unmarshall).Ready ∧
      (c ++ bs).drop rpcHeaderSz = bs ∧ rpcHeaderSz + bs.length = (c ++ bs).length := by
  have hlen : (c ++ bs).length = rpcHeaderSz + bs.length := by rw [List.length_append, hc]
  refine ⟨⟨rfl, le_rfl, ?_⟩, by rw [← hc, List.drop_left], hlen.symm⟩
  unfold Fits at hfit
  show (c ++ bs).length < 2 ^ 31
  omega

/-- The stub calls its method with the arguments that were marshalled. -/
theorem fn_payload {sig : Signature} (R : Ty) (meth : List Value → Int × R.den) {vs : List Value}
    (hvs : vs.map Sigma.fst = sig.args) (hfit : Fits (payload vs)) (hc : c.length = rpcHeaderSz)
    (ret : Marshall) :
    sig.fn R meth (requestArgs c (payload vs)) ret =
      ([vs], (Marshall.put R ret (meth vs).2).map fun m => ((meth vs).1, m)) := by
  obtain ⟨hready, hdrop, hlen⟩ := ready_of_fits hc hfit
  have hget := Unmarshall.yields_getAll vs _ [] hready (hdrop.trans (List.append_nil _).symm)
    hlen.le
  unfold Signature.fn
  rw [← hvs, requestArgs_eq hc, hget]
  have hdone : ((⟨c ++ payload vs, (c ++ payload vs).length, rpcHeaderSz, true, false⟩ :
      Unmarshall).advance (payload vs).length).okdone = true := by
    simp only [Unmarshall.advance, Unmarshall.okdone, Bool.true_and]
    exact decide_eq_true hlen
  dsimp only
  rw [if_pos hdone]

/-- `got_pdu` hands over a PDU with the cursor behind the header. -/
theorem replyResult_eq (hc : c.length = rpcHeaderSz) (r : Reply) :
    replyResult c (some r) =
      ⟨c ++ r.payload, (c ++ r.payload).length, rpcHeaderSz, true, false⟩ := by
  have hsz : 24 ≤ (c ++ r.payload).length := by
    rw [List.length_append, hc]
    exact Nat.le_add_right _ _
  have hunpack : ∀ i, i + 4 ≤ (c ++ r.payload).length →
      (⟨c ++ r.payload, (c ++ r.payload).length, i, true, false⟩ : Unmarshall).unpack.2 =
        ⟨c ++ r.payload, (c ++ r.payload).length, i + 4, true, false⟩ := fun i h =>
    @Unmarshall.getWord_snd ⟨c ++ r.payload, (c ++ r.payload).length, i, true, false⟩ 4 h
  have hle : rpcHeaderSz ≤ (c ++ r.payload).length := hsz
  unfold replyResult Unmarshall.unpackReplyHeader Unmarshall.unpackReplyFields
  simp only [Unmarshall.ofBuffer, rpcSzSize]
  rw [hunpack 4 (by omega), hunpack 8 (by omega)]
  simp only [Unmarshall.takeIn, hle, decide_true]

/-- `call_m` passes its assertion and leaves the result that was marshalled in the
caller's variable, unless that is a vector that holds something. -/
theorem callM_enc {R : Ty} {r target : R.den} (hfit : Fits (enc R r)) (hc : c.length = rpcHeaderSz)
    {rep : Reply} (hrep : rep.payload = enc R r) {v : Int} (h0 : 0 ≤ v)
    (hv : R.isVector = true → target = R.fresh) :
    callM R v (replyResult c (some rep)) target = some (v, r) := by
  obtain ⟨hready, hdrop, hlen⟩ := ready_of_fits hc hfit
  have hget := Unmarshall.yields_get R r _ [] hready (hdrop.trans (List.append_nil _).symm) hlen.le
  have hsnd := Unmarshall.getInto_snd R target R.fresh
    ⟨c ++ enc R r, (c ++ enc R r).length, rpcHeaderSz, true, false⟩
  have hdone : (Unmarshall.getInto R target
      ⟨c ++ enc R r, (c ++ enc R r).length, rpcHeaderSz, true, false⟩).2.okdone = true := by
    rw [hsnd]
    show (Unmarshall.get R _).2.okdone = true
    rw [hget]
    simp only [Unmarshall.advance, Unmarshall.okdone, Bool.true_and]
    exact decide_eq_true hlen
  have hok := (Bool.and_eq_true_iff.mp hdone).1
  rw [Unmarshall.callM_eq_some h0, replyResult_eq hc, hrep]
  refine ⟨hdone, ?_⟩
  rw [(Unmarshall.getInto_fst_iff R target R.fresh _ hok).mpr hv]
  show (Unmarshall.get R _).1 = r
  rw [hget]

end RpcLock.Rpcs
