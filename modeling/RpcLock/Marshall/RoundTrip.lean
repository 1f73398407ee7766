import RpcLock.Marshall.Get
import RpcLock.Connection.Pdu

/-!
# The wire format round trip

The values of a message are marshalled in order, and the header is packed before,
after or between them.  The content of the buffer does not depend on where, and
unmarshalling returns the header and the values, as long as the message fits into
2^30 bytes.  That is the largest capacity that doubling reaches before `_capa`
overflows, and one byte more can fail.
-/

namespace RpcLock

inductive HeaderKind where
  | req
  | reply
deriving DecidableEq, Repr

inductive Header where
  | req (h : ReqHeader)
  | reply (h : ReplyHeader)
deriving DecidableEq, Repr

namespace Header

def kind : Header → HeaderKind
  | req _ => .req
  | reply _ => .reply

def fields : Header → List Int32
  | req h => h.fields
  | reply h => h.fields

/-- A header fits behind the size. -/
theorem fields_fit (h : Header) : rpcSzSize + 4 * h.fields.length ≤ rpcHeaderSz := by
  cases h with
  | req h => show 4 + 4 * 5 ≤ 24; omega
  | reply h => show 4 + 4 * 2 ≤ 24; omega

end Header

namespace Marshall

def packAny (m : Marshall) : Header → Option Marshall
  | .req h => m.packReqHeader h
  | .reply h => m.packReplyHeader h

theorem packAny_eq (m : Marshall) (h : Header) : m.packAny h = m.packHeader h.fields := by
  cases h <;> rfl

end Marshall

/-- Marshall `pre`, pack the header, and marshall `post`. -/
def marshalled (junk : Nat → UInt8) (h : Header) (pre post : List Value) : Option Marshall :=
  ((Marshall.init junk).putAll pre).bind fun m => (m.packAny h).bind fun m => m.putAll post

/-! ## The content of the buffer -/

@[simp] theorem payload_append (vs ws : List Value) : payload (vs ++ ws) = payload vs ++ payload ws :=
  List.flatMap_append

/-- The bytes of a message: those of `c` around the header are not written. -/
def wire (c : List UInt8) (h : Header) (vs : List Value) : List UInt8 :=
  c.take rpcSzSize ++ (Marshall.fieldBytes h.fields ++
    (c.drop (rpcSzSize + 4 * h.fields.length) ++ payload vs))

theorem drop_size_wire {c : List UInt8} (hc : c.length = rpcHeaderSz) (h : Header)
    (vs : List Value) :
    (wire c h vs).drop rpcSzSize = Marshall.fieldBytes h.fields ++
      (c.drop (rpcSzSize + 4 * h.fields.length) ++ payload vs) := by
  have hfit := h.fields_fit
  have htake : (c.take rpcSzSize).length = rpcSzSize := List.length_take_of_le (by omega)
  rw [wire, List.drop_append_of_le_length (by rw [htake]), List.drop_of_length_le (by rw [htake]),
    List.nil_append]

/-- What follows the bytes of the header. -/
theorem drop_header {b c rest : List UInt8} {h : Header} (hc : c.length = rpcHeaderSz)
    (hb : b.drop rpcSzSize = Marshall.fieldBytes h.fields ++
      (c.drop (rpcSzSize + 4 * h.fields.length) ++ rest)) :
    b.drop rpcHeaderSz = rest := by
  have hfit := h.fields_fit
  have hpre : (Marshall.fieldBytes h.fields ++
      c.drop (rpcSzSize + 4 * h.fields.length)).length = rpcHeaderSz - rpcSzSize := by
    rw [List.length_append, Marshall.length_fieldBytes, List.length_drop]
    omega
  rw [show rpcHeaderSz = rpcSzSize + (rpcHeaderSz - rpcSzSize) from rfl, ← List.drop_drop, hb,
    ← List.append_assoc, ← hpre, List.drop_left]

/-- The content after the values before the header, the header and the values
behind it. -/
theorem content_of_steps {junk : Nat → UInt8} {h : Header} {pre post : List Value}
    {m₁ m₂ m₃ : Marshall} (ha₁ : (Marshall.init junk).Appended (payload pre) m₁)
    (hi₂ : m₂.ind = m₁.ind)
    (hc₂ : m₂.content = m₁.content.take rpcSzSize ++ Marshall.fieldBytes h.fields ++
      m₁.content.drop (rpcSzSize + 4 * h.fields.length))
    (ha₃ : m₂.Appended (payload post) m₃) :
    m₃.ind = rpcHeaderSz + (payload (pre ++ post)).length ∧
      m₃.content = wire (Marshall.init junk).content h (pre ++ post) := by
  have hind : (Marshall.init junk).ind = rpcHeaderSz := rfl
  have hlen : (Marshall.init junk).content.length = rpcHeaderSz :=
    (Marshall.wf_init junk).length_content
  have hfit := h.fields_fit
  constructor
  · rw [ha₃.ind, hi₂, ha₁.ind, hind, payload_append, List.length_append, Nat.add_assoc]
  · rw [ha₃.content, hc₂, ha₁.content, List.take_append_of_le_length (by omega),
      List.drop_append_of_le_length (by omega)]
    simp only [wire, payload_append, List.append_assoc]

/-- The position of the header does not matter. -/
theorem marshalled_content (junk : Nat → UInt8) (h : Header) (pre post : List Value)
    (hsize : rpcHeaderSz + (payload (pre ++ post)).length ≤ 2 ^ 30) :
    ∃ m, marshalled junk h pre post = some m ∧ m.WF ∧
      m.ind = rpcHeaderSz + (payload (pre ++ post)).length ∧
      m.content = wire (Marshall.init junk).content h (pre ++ post) := by
  have hind : (Marshall.init junk).ind = rpcHeaderSz := rfl
  rw [payload_append, List.length_append] at hsize
  obtain ⟨m₁, h₁, ha₁⟩ :=
    Marshall.appends_putAll pre _ (Marshall.wf_init junk) (by rw [hind]; omega)
  obtain ⟨m₂, h₂, hm₂, -, hi₂, hc₂⟩ :=
    Marshall.packHeader_spec ha₁.wf h.fields_fit (by rw [ha₁.ind, hind]; omega)
  obtain ⟨m₃, h₃, ha₃⟩ :=
    Marshall.appends_putAll post m₂ hm₂ (by rw [hi₂, ha₁.ind, hind]; omega)
  refine ⟨m₃, ?_, ha₃.wf, content_of_steps ha₁ hi₂ hc₂ ha₃⟩
  have h₁ : (Marshall.init junk).putAll pre = some m₁ := h₁
  simp only [marshalled, h₁, Option.bind_some, Marshall.packAny_eq, h₂]
  exact h₃

/-! ## Reading it back -/

namespace Unmarshall

def unpackAny (u : Unmarshall) : HeaderKind → Header × Unmarshall
  | .req =>
      let (h, u) := u.unpackReqHeader
      (.req h, u)
  | .reply =>
      let (h, u) := u.unpackReplyHeader
      (.reply h, u)

/-- The buffer `b` of size `sz` unmarshalls to a header and values: nothing fails,
and the buffer is used up with the last value. -/
structure Reads (b : List UInt8) (sz : Nat) (h : Header) (vs : List Value) : Prop where
  header : ((ofBuffer b sz).unpackAny h.kind).1 = h
  header_ok : ((ofBuffer b sz).unpackAny h.kind).2.ok = true
  /-- After the values `done`. -/
  values : ∀ done rest, vs = done ++ rest →
    (getAll (done.map Sigma.fst) ((ofBuffer b sz).unpackAny h.kind).2).1 = done ∧
    (getAll (done.map Sigma.fst) ((ofBuffer b sz).unpackAny h.kind).2).2.ok = true ∧
    ((getAll (done.map Sigma.fst) ((ofBuffer b sz).unpackAny h.kind).2).2.okdone = true ↔
      rest = [])

/-- The position of the first value. -/
def behindHeader (u : Unmarshall) : Unmarshall := { u with ind := rpcHeaderSz }

theorem unpackAny_eq {u : Unmarshall} (hu : u.Ready) {h : Header} {rest : List UInt8}
    (hbuf : u.buf.drop rpcSzSize = Marshall.fieldBytes h.fields ++ rest)
    (hle : rpcHeaderSz ≤ u.sz) :
    u.unpackAny h.kind = (h, u.behindHeader) := by
  have hu₀ : Ready { u with ind := rpcSzSize } := ⟨hu.ok, hu.sz_le, hu.sz_lt⟩
  have hfit := h.fields_fit
  have hle₀ : rpcSzSize + (Marshall.fieldBytes h.fields).length ≤ u.sz := by
    rw [Marshall.length_fieldBytes]
    omega
  cases h with
  | req h =>
      have hr := yields_unpackReqFields h _ rest hu₀ hbuf hle₀
      simp only [Header.kind, unpackAny, unpackReqHeader, hr, advance, behindHeader]
  | reply h =>
      have hr := yields_unpackReplyFields h _ rest hu₀ hbuf hle₀
      simp only [Header.kind, unpackAny, unpackReplyHeader, hr, advance, behindHeader]

theorem payload_eq_nil {vs : List Value} : (payload vs).length = 0 ↔ vs = [] := by
  cases vs with
  | nil => exact ⟨fun _ => rfl, fun _ => rfl⟩
  | cons v vs =>
      have hpos := enc_pos v.1 v.2
      have hlen : (payload (v :: vs)).length = (enc v.1 v.2).length + (payload vs).length :=
        List.length_append
      refine ⟨fun h => ?_, nofun⟩
      omega

/-- A buffer that has the bytes of a message behind the size, which the channel
fills in. -/
theorem reads_of_wire {b c : List UInt8} {sz : Nat} {h : Header} {vs : List Value}
    (hc : c.length = rpcHeaderSz) (hsz : sz = rpcHeaderSz + (payload vs).length)
    (hle : sz ≤ b.length) (hlt : sz < 2 ^ 31)
    (hb : (b.take sz).drop rpcSzSize = (wire c h vs).drop rpcSzSize) : Reads b sz h vs := by
  have hready : (ofBuffer b sz).Ready := ⟨rfl, hle, hlt⟩
  have hfit := h.fields_fit
  have hbuf : b.drop rpcSzSize = Marshall.fieldBytes h.fields ++
      (c.drop (rpcSzSize + 4 * h.fields.length) ++ (payload vs ++ b.drop sz)) := by
    have hsplit : b.drop rpcSzSize = (b.take sz).drop rpcSzSize ++ b.drop sz := by
      conv => lhs; rw [← List.take_append_drop sz b]
      rw [List.drop_append_of_le_length (by rw [List.length_take_of_le hle]; omega)]
    rw [hsplit, hb, drop_size_wire hc, List.append_assoc, List.append_assoc]
  have hpay : b.drop rpcHeaderSz = payload vs ++ b.drop sz := drop_header hc hbuf
  have hunpack := unpackAny_eq (u := ofBuffer b sz) hready hbuf (show rpcHeaderSz ≤ sz by omega)
  refine ⟨by rw [hunpack], by rw [hunpack]; rfl, fun done rest hvs => ?_⟩
  rw [hunpack]
  have hlen : (payload vs).length = (payload done).length + (payload rest).length := by
    rw [hvs, payload_append, List.length_append]
  rw [hvs, payload_append, List.append_assoc] at hpay
  have hget := yields_getAll done (ofBuffer b sz).behindHeader _
    ⟨rfl, hle, hlt⟩ hpay (show rpcHeaderSz + (payload done).length ≤ sz by omega)
  show (getAll (done.map Sigma.fst) (ofBuffer b sz).behindHeader).1 = done ∧
    (getAll (done.map Sigma.fst) (ofBuffer b sz).behindHeader).2.ok = true ∧
    ((getAll (done.map Sigma.fst) (ofBuffer b sz).behindHeader).2.okdone = true ↔ rest = [])
  rw [hget]
  refine ⟨rfl, rfl, ?_⟩
  have hdone : rpcHeaderSz + (payload done).length = sz ↔ (payload rest).length = 0 := by omega
  rw [← payload_eq_nil, ← hdone]
  exact decide_eq_true_iff

end Unmarshall

/-! ## The round trip -/

/-- A message of up to 2^30 bytes: the bytes of the header and of the values are
the same wherever the header is packed, and unmarshalling the buffer, or one that
has the same bytes behind the size, returns them. -/
theorem round_trip (junk : Nat → UInt8) (h : Header) (pre post : List Value)
    (hsize : rpcHeaderSz + (payload (pre ++ post)).length ≤ 2 ^ 30) :
    ∃ m, marshalled junk h pre post = some m ∧
      m.ind = rpcHeaderSz + (payload (pre ++ post)).length ∧
      (m.content.drop rpcSzSize).take (4 * h.fields.length) = Marshall.fieldBytes h.fields ∧
      m.content.drop rpcHeaderSz = payload (pre ++ post) ∧
      Unmarshall.Reads m.buf m.ind h (pre ++ post) ∧
      ∀ b, m.ind ≤ b.length → (b.take m.ind).drop rpcSzSize = m.content.drop rpcSzSize →
        Unmarshall.Reads b m.ind h (pre ++ post) := by
  obtain ⟨m, hm, hwf, hind, hcontent⟩ := marshalled_content junk h pre post hsize
  have hc : (Marshall.init junk).content.length = rpcHeaderSz :=
    (Marshall.wf_init junk).length_content
  have hfit := h.fields_fit
  have hreads : ∀ b, m.ind ≤ b.length →
      (b.take m.ind).drop rpcSzSize = m.content.drop rpcSzSize →
      Unmarshall.Reads b m.ind h (pre ++ post) := by
    intro b hle hb
    rw [hcontent] at hb
    exact Unmarshall.reads_of_wire hc hind hle (by omega) hb
  refine ⟨m, hm, hind, ?_, ?_, hreads m.buf ?_ rfl, hreads⟩
  · rw [hcontent, drop_size_wire hc, ← Marshall.length_fieldBytes, List.take_left]
  · exact drop_header hc (by rw [hcontent, drop_size_wire hc])
  · rw [hwf.length_buf]
    exact hwf.ind_le

theorem round_trip_nested :
    ∃ m, marshalled (fun _ => 7) (.req ⟨-2, 0x7001, 3, 4, 5⟩)
        [⟨.string, ([104, 105] : StdString)⟩, ⟨.int, (-1 : Int32)⟩]
        [⟨.vector .char, ([-3, 5] : List Int8)⟩] = some m ∧
      m.ind = 40 ∧
      Unmarshall.Reads m.buf m.ind (.req ⟨-2, 0x7001, 3, 4, 5⟩)
        [⟨.string, ([104, 105] : StdString)⟩, ⟨.int, (-1 : Int32)⟩,
          ⟨.vector .char, ([-3, 5] : List Int8)⟩] := by
  obtain ⟨m, hm, hind, -, -, hreads, -⟩ := round_trip (fun _ => 7) (.req ⟨-2, 0x7001, 3, 4, 5⟩)
    [⟨.string, ([104, 105] : StdString)⟩, ⟨.int, (-1 : Int32)⟩]
    [⟨.vector .char, ([-3, 5] : List Int8)⟩] (by decide)
  exact ⟨m, hm, hind, hreads⟩

/-- The PDU that `send` makes of the buffer unmarshals to the message. -/
theorem reads_framed {junk : Nat → UInt8} {h : Header} {pre post : List Value} {m : Marshall}
    (hm : marshalled junk h pre post = some m)
    (hsize : rpcHeaderSz + (payload (pre ++ post)).length ≤ 2 ^ 30) {p : Connection.Pdu}
    (hp : p.bytes = m.content) : Unmarshall.Reads p.framed p.size h (pre ++ post) := by
  obtain ⟨m', hm', hwf, hind, hcontent⟩ := marshalled_content junk h pre post hsize
  rw [hm] at hm'
  cases hm'
  have hc : (Marshall.init junk).content.length = rpcHeaderSz :=
    (Marshall.wf_init junk).length_content
  have hsz : p.size = m.ind := by rw [Connection.Pdu.size, hp, hwf.length_content]
  have hlen : p.framed.length = p.size := p.length_framed
  refine Unmarshall.reads_of_wire hc (hsz.trans hind) hlen.ge (by omega) ?_
  rw [List.take_of_length_le hlen.le, ← hcontent, ← hp]
  exact Connection.drop_framed p

/-! ## Larger messages -/

namespace Marshall

theorem rawbyte_capa {m m' : Marshall} {x : UInt8} {k : Nat} (hk : m.capa = 2 ^ k)
    (h : m.rawbyte x = some m') : ∃ k', m'.capa = 2 ^ k' := by
  unfold rawbyte at h
  split at h
  · unfold grow at h
    split at h
    · cases h
      exact ⟨k + 1, show 2 * m.capa = 2 ^ (k + 1) by rw [hk, pow_succ, Nat.mul_comm]⟩
    · cases h
  · cases h
    exact ⟨k, hk⟩

/-- Doubling stops at 2^30 bytes. -/
theorem capa_le {m : Marshall} (h : m.WF) {k : Nat} (hk : m.capa = 2 ^ k) : m.capa ≤ 2 ^ 30 := by
  have hlt := h.capa_lt
  rw [hk] at hlt ⊢
  have hk : k < 31 := (Nat.pow_lt_pow_iff_right (by decide)).mp hlt
  exact Nat.pow_le_pow_right (by decide) (by omega)

/-- Single bytes beyond 2^30 fail. -/
theorem putAll_bytes_eq_none (n : Nat) {m : Marshall} (h : m.WF) {k : Nat} (hk : m.capa = 2 ^ k)
    (hn : 2 ^ 30 < m.ind + n) :
    m.putAll (List.replicate n ⟨.uchar, (0 : UInt8)⟩) = none := by
  have hcapa := capa_le h hk
  have hind := h.ind_le
  induction n generalizing m k with
  | zero => omega
  | succ n ih =>
      show (m.rawbyte 0).bind (fun m => m.putAll (List.replicate n ⟨.uchar, (0 : UInt8)⟩)) = none
      by_cases hroom : m.ind + 1 ≤ 2 ^ 30
      · obtain ⟨m₁, h₁, ha⟩ := appends_rawbyte 0 m h hroom
        have h₁ : m.rawbyte 0 = some m₁ := h₁
        have hi : m₁.ind = m.ind + 1 := ha.ind
        obtain ⟨k₁, hk₁⟩ := rawbyte_capa hk h₁
        rw [h₁, Option.bind_some]
        exact ih ha.wf hk₁ (by omega) (capa_le ha.wf hk₁) ha.wf.ind_le
      · have hfail : m.rawbyte 0 = none := by
          unfold rawbyte grow
          rw [if_pos (by omega), if_neg (by omega)]
          rfl
        rw [hfail, Option.bind_none]

end Marshall

/-- One byte more than 2^30, and `_capa` overflows: no buffer holds 2^30 + 1 bytes
that were written one by one. -/
theorem round_trip_limit :
    ∃ vs : List Value, (payload vs).length < 2 ^ 31 ∧
      rpcHeaderSz + (payload vs).length = 2 ^ 30 + 1 ∧
      ∀ junk h, marshalled junk h vs [] = none := by
  have hlen : ∀ n, (payload (List.replicate n ⟨.uchar, (0 : UInt8)⟩)).length = n := by
    intro n
    induction n with
    | zero => rfl
    | succ n ih =>
        rw [List.replicate_succ, payload, List.flatMap_cons, List.length_append]
        rw [payload] at ih
        rw [ih]
        exact Nat.add_comm 1 n
  have hsz : rpcHeaderSz = 24 := rfl
  refine ⟨List.replicate (2 ^ 30 - 23) ⟨.uchar, (0 : UInt8)⟩, ?_, ?_, fun junk h => ?_⟩
  · rw [hlen]
    omega
  · rw [hlen, hsz]
    omega
  · have hnone := Marshall.putAll_bytes_eq_none (2 ^ 30 - 23) (Marshall.wf_init junk)
      (k := 10) rfl (show 2 ^ 30 < rpcHeaderSz + (2 ^ 30 - 23) by rw [hsz]; omega)
    rw [marshalled, hnone, Option.bind_none]

end RpcLock
