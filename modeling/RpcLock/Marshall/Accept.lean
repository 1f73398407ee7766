import RpcLock.Marshall.Bounds
import RpcLock.Marshall.Get

/-!
# What `operator>>` accepts

For the fixed-width integers and the strings the encoding is onto: every byte
string of the right shape encodes some value.  So where an extraction succeeds
and no string length wraps, the bytes it read are the encoding of what it
returned, and a sequence of extractions that ends with `okdone` has read the
encoding of a tuple and nothing else.
-/

namespace RpcLock

/-- The argument types: the fixed-width integers and `std::string`. -/
def Ty.isArg : Ty → Bool
  | .char | .uchar | .short | .ushort | .int | .uint | .ulonglong | .string => true
  | .bool | .vector _ | .map _ _ => false

/-- The bytes of an integer type. -/
def Ty.width : Ty → Nat
  | .bool | .char | .uchar => 1
  | .short | .ushort => 2
  | .int | .uint => 4
  | .ulonglong => 8
  | .string | .vector _ | .map _ _ => 0

/-! ## The encodings are onto -/

/-- A word of `w` bytes that denotes the number of some value. -/
theorem encode_of_length {bs : List UInt8} {w n : Nat} (hlen : bs.length = w)
    (hn : n = BigEndian.decode bs) : BigEndian.encode w n = bs := by
  rw [hn, ← hlen]
  exact BigEndian.encode_decode bs

theorem decode_lt_of_length {bs : List UInt8} {w : Nat} (hlen : bs.length = w) :
    BigEndian.decode bs < 256 ^ w := hlen ▸ BigEndian.decode_lt bs

/-- Bytes of the width of an integer type encode one of its values. -/
theorem enc_surjective {t : Ty} (ht : t.isArg = true) (hs : t ≠ .string) {bs : List UInt8}
    (hlen : bs.length = t.width) : ∃ x, enc t x = bs := by
  have hlt := decode_lt_of_length hlen
  cases t with
  | bool | vector | map => cases ht
  | string => exact absurd rfl hs
  | char =>
      obtain ⟨b, rfl⟩ := List.length_eq_one_iff.mp hlen
      exact ⟨b.toInt8, congrArg (fun c => [c]) (UInt8.toUInt8_toInt8 b)⟩
  | uchar =>
      obtain ⟨b, rfl⟩ := List.length_eq_one_iff.mp hlen
      exact ⟨b, rfl⟩
  | short =>
      refine ⟨(UInt16.ofNat (BigEndian.decode bs)).toInt16, encode_of_length hlen ?_⟩
      rw [UInt16.toUInt16_toInt16, UInt16.toNat_ofNat_of_lt' hlt]
  | ushort =>
      exact ⟨UInt16.ofNat (BigEndian.decode bs),
        encode_of_length hlen (UInt16.toNat_ofNat_of_lt' hlt)⟩
  | int =>
      refine ⟨(UInt32.ofNat (BigEndian.decode bs)).toInt32, encode_of_length hlen ?_⟩
      rw [UInt32.toUInt32_toInt32, UInt32.toNat_ofNat_of_lt' hlt]
  | uint =>
      exact ⟨UInt32.ofNat (BigEndian.decode bs),
        encode_of_length hlen (UInt32.toNat_ofNat_of_lt' hlt)⟩
  | ulonglong =>
      exact ⟨UInt64.ofNat (BigEndian.decode bs),
        encode_of_length hlen (UInt64.toNat_ofNat_of_lt' hlt)⟩

theorem enc_string (s : StdString) : enc .string s = BigEndian.encode 4 s.length ++ s := rfl

namespace Unmarshall

variable {u : Unmarshall} {t : Ty}

/-! ## One extraction -/

/-- The bytes at the cursor are the encoding of a value. -/
def Present (t : Ty) (u : Unmarshall) : Prop :=
  ∃ (x : t.den) (rest : List UInt8), u.buf.drop u.ind = enc t x ++ rest ∧
    u.ind + (enc t x).length ≤ u.sz

/-- An integer that is read has all its bytes in the buffer. -/
theorem width_le_of_ok (ht : t.isArg = true) (hs : t ≠ .string) (h : (get t u).2.ok = true) :
    u.ind + t.width ≤ u.sz := by
  cases t with
  | bool | vector | map => cases ht
  | string => exact absurd rfl hs
  | char | uchar => exact (ind_of_getWord (n := 1) h).2.resolve_left (by decide)
  | short | ushort => exact (ind_of_getWord (n := 2) h).2.resolve_left (by decide)
  | int | uint => exact (ind_of_getWord (n := 4) h).2.resolve_left (by decide)
  | ulonglong =>
      have hword : (get .ulonglong u).2 = u.getUInt.2.getUInt.2 := getULongLong_snd u
      rw [hword] at h
      obtain ⟨-, hlow⟩ := ind_of_getUInt h
      obtain ⟨hind, -⟩ := ind_of_getUInt (ok_of_getUInt h)
      have hsz := (linked_getUInt u).end_sz
      show u.ind + 8 ≤ u.sz
      omega

theorem present_integer (hu : u.Ready) (ht : t.isArg = true) (hs : t ≠ .string)
    (h : (get t u).2.ok = true) : Present t u := by
  have hle := width_le_of_ok ht hs h
  have hbuf := hu.sz_le
  have hlen : ((u.buf.drop u.ind).take t.width).length = t.width := by
    rw [List.length_take, List.length_drop]
    omega
  obtain ⟨x, hx⟩ := enc_surjective ht hs hlen
  refine ⟨x, (u.buf.drop u.ind).drop t.width, ?_, ?_⟩
  · rw [hx, List.take_append_drop]
  · rw [hx, hlen]
    exact hle

/-- A string that is read without wrapping is behind its length. -/
theorem present_string (hu : u.Ready) (h : (get .string u).2.ok = true)
    (hw : ∀ p ∈ traceInto .string ([] : StdString) u, p.2.NoWrap p.1) : Present .string u := by
  have hbuf := hu.sz_le
  have hget : get .string u = u.getString ([] : StdString) := rfl
  have hcount : u.getUInt.2.ok = true := by
    by_contra hno
    rw [hget, getString_eq, if_neg hno] at h
    exact hno h
  have h4 : u.ind + 4 ≤ u.sz := (ind_of_getUInt hcount).2
  -- the four bytes of the length
  have hlen4 : ((u.buf.drop u.ind).take 4).length = 4 := by
    rw [List.length_take, List.length_drop]
    omega
  obtain ⟨n, hn⟩ : ∃ n : UInt32, BigEndian.encode 4 n.toNat = (u.buf.drop u.ind).take 4 :=
    enc_surjective (t := .uint) rfl (by decide) hlen4
  have hsplit : u.buf.drop u.ind = BigEndian.encode 4 n.toNat ++ u.buf.drop (u.ind + 4) := by
    rw [hn, ← List.drop_drop, List.take_append_drop]
  have hread : u.getUInt.1 = n :=
    congrArg Prod.fst (yields_getUInt n u _ hu hsplit (by rw [BigEndian.length_encode]; exact h4))
  -- the bytes it announces
  rw [hget, getString_eq, if_pos hcount, hread, getUInt_snd h4] at h
  have hnw : u.ind + 4 + n.toNat < 2 ^ 32 := by
    have := hw (u.getUInt.2, .rawbytes [] u.getUInt.1)
      (List.mem_append_right _ (by rw [if_pos hcount]; exact List.mem_singleton_self _))
    rwa [hread, getUInt_snd h4] at this
  have hin : u.ind + 4 + n.toNat ≤ u.sz := le_of_rawbytes h hnw
  have hlen : ((u.buf.drop (u.ind + 4)).take n.toNat).length = n.toNat := by
    rw [List.length_take, List.length_drop]
    omega
  refine ⟨(u.buf.drop (u.ind + 4)).take n.toNat, (u.buf.drop (u.ind + 4)).drop n.toNat, ?_, ?_⟩
  · rw [enc_string, hlen, List.append_assoc, List.take_append_drop, hsplit]
  · rw [enc_string, hlen, List.length_append, hlen, BigEndian.length_encode]
    omega

/-- What an extraction reads is the encoding of what it returns. -/
theorem present_of_ok (hu : u.Ready) (ht : t.isArg = true) (h : (get t u).2.ok = true)
    (hw : ∀ p ∈ traceInto t t.fresh u, p.2.NoWrap p.1) : Present t u := by
  by_cases hs : t = .string
  · subst hs
    exact present_string hu h hw
  · exact present_integer hu ht hs h

/-! ## Sequences of extractions -/

/-- The same for a sequence. -/
theorem present_all {ts : List Ty} (hu : u.Ready) (hin : u.ind ≤ u.sz)
    (ht : ∀ t ∈ ts, t.isArg = true) (h : (getAll ts u).2.ok = true)
    (hw : ∀ p ∈ traceAll ts u, p.2.NoWrap p.1) :
    ∃ vs rest, vs.map Sigma.fst = ts ∧ u.buf.drop u.ind = payload vs ++ rest ∧
      u.ind + (payload vs).length ≤ u.sz := by
  induction ts generalizing u with
  | nil => exact ⟨[], u.buf.drop u.ind, rfl, rfl, hin⟩
  | cons t ts ih =>
      have hok : (get t u).2.ok = true := (linked_all ts _).ok h
      obtain ⟨x, rest, hbuf, hle⟩ := present_of_ok hu (ht t List.mem_cons_self) hok
        fun p hp => hw p (List.mem_append_left _ hp)
      obtain ⟨hget, hu₁, hbuf₁⟩ := (yields_get t x).run hu hbuf hle
      have hnext : (get t u).2 = u.advance (enc t x).length := congrArg Prod.snd hget
      obtain ⟨vs, rest', hts, hpay, hle'⟩ := ih (u := u.advance (enc t x).length) hu₁ hle
        (fun t' ht' => ht t' (List.mem_cons_of_mem _ ht')) (hnext ▸ h)
        fun p hp => hw p (List.mem_append_right _ (hnext ▸ hp))
      have hcons : payload (⟨t, x⟩ :: vs) = enc t x ++ payload vs := rfl
      refine ⟨⟨t, x⟩ :: vs, rest', congrArg (t :: ·) hts, ?_, ?_⟩
      · rw [hcons, hbuf, List.append_assoc, ← hpay, hbuf₁]
      · rw [hcons, List.length_append, ← Nat.add_assoc]
        exact hle'

/-- A sequence that ends with `okdone` has read the encoding of its tuple, and
nothing else is behind the cursor. -/
theorem okdone_iff {ts : List Ty} {p : List UInt8} (hu : u.Ready) (hbuf : u.buf.drop u.ind = p)
    (hend : u.ind + p.length = u.sz) (ht : ∀ t ∈ ts, t.isArg = true)
    (hw : ∀ q ∈ traceAll ts u, q.2.NoWrap q.1) (vs : List Value) :
    ((getAll ts u).2.okdone = true ∧ (getAll ts u).1 = vs) ↔
      vs.map Sigma.fst = ts ∧ payload vs = p := by
  constructor
  · rintro ⟨hdone, rfl⟩
    obtain ⟨hok, hind⟩ := (Bool.and_eq_true _ _).mp hdone
    obtain ⟨ws, rest, rfl, hpay, hle⟩ := present_all hu (by omega) ht hok hw
    have hrun := yields_getAll ws u rest hu hpay hle
    rw [hrun] at hind ⊢
    refine ⟨rfl, ?_⟩
    -- the cursor is at the end, so nothing is left
    have hlen : u.ind + (payload ws).length = u.sz := of_decide_eq_true hind
    rw [hbuf] at hpay
    have hrest : rest = [] := by
      have hp := congrArg List.length hpay
      rw [List.length_append] at hp
      exact List.length_eq_zero_iff.mp (by omega)
    rw [hpay, hrest, List.append_nil]
  · rintro ⟨rfl, rfl⟩
    have hrun := yields_getAll vs u [] hu (by rw [hbuf, List.append_nil]) hend.le
    rw [hrun]
    refine ⟨?_, rfl⟩
    show (u.ok && decide (u.ind + (payload vs).length = u.sz)) = true
    rw [hu.ok, decide_eq_true hend]
    rfl

/-- Once an extraction has failed `okdone` stays false. -/
theorem okdone_of_failed (hu : u.ok = false) (ts : List Ty) :
    (getAll ts u).2.okdone = false := by
  cases hok : (getAll ts u).2.ok with
  | true =>
      have := (linked_all ts u).ok hok
      rw [hu] at this
      cases this
  | false =>
      unfold okdone
      rw [hok]
      rfl

end Unmarshall

end RpcLock
