import RpcLock.Marshall.Types

/-!
# What `operator<<` writes

`enc` is the encoding of a value.  `Appends f bs` says that `f` adds the bytes
`bs` at the write position of any well-formed buffer, as long as the total stays
within 2^30 bytes.  The operators are chains of smaller writes, and `Appends` is
closed under chaining.
-/

namespace RpcLock

/-- The encoding of a value. -/
def enc : (t : Ty) → t.den → List UInt8
  | .bool => fun (x : Bool) => [if x then 1 else 0]
  | .char => fun (x : Int8) => [x.toUInt8]
  | .uchar => fun (x : UInt8) => [x]
  | .short => fun (x : Int16) => BigEndian.encode 2 x.toUInt16.toNat
  | .ushort => fun (x : UInt16) => BigEndian.encode 2 x.toNat
  | .int => fun (x : Int32) => BigEndian.encode 4 x.toUInt32.toNat
  | .uint => fun (x : UInt32) => BigEndian.encode 4 x.toNat
  | .ulonglong => fun (x : UInt64) => BigEndian.encode 8 x.toNat
  | .string => fun (s : StdString) => BigEndian.encode 4 s.length ++ s
  | .vector t => fun (v : List t.den) => BigEndian.encode 4 v.length ++ v.flatMap (enc t)
  | .map a b => fun (d : SortedMap a.den b.den) =>
      BigEndian.encode 4 d.entries.length ++ d.entries.flatMap fun p => enc a p.1 ++ enc b p.2

/-- The bytes of a list of values. -/
def payload (vs : List Value) : List UInt8 := vs.flatMap fun v => enc v.1 v.2

namespace Marshall

/-! ## Chains of writes -/

/-- The buffer has its capacity, and the write position is in it. -/
structure WF (m : Marshall) : Prop where
  length_buf : m.buf.length = m.capa
  ind_le : m.ind ≤ m.capa
  capa_ge : defaultRpcSz ≤ m.capa
  capa_lt : m.capa < 2 ^ 31

/-- What has been written. -/
def content (m : Marshall) : List UInt8 := m.buf.take m.ind

/-- The bytes `bs` were written behind what was there. -/
structure Appended (m : Marshall) (bs : List UInt8) (m' : Marshall) : Prop where
  wf : m'.WF
  content : m'.content = m.content ++ bs
  ind : m'.ind = m.ind + bs.length
  /-- Without growth nothing behind them changes. -/
  inPlace : m.ind + bs.length ≤ m.capa →
    m'.capa = m.capa ∧ m'.buf.drop m'.ind = m.buf.drop m'.ind

/-- A write of the bytes `bs`. -/
def Appends (f : Marshall → Option Marshall) (bs : List UInt8) : Prop :=
  ∀ m : Marshall, m.WF → m.ind + bs.length ≤ 2 ^ 30 → ∃ m', f m = some m' ∧ m.Appended bs m'

theorem wf_init (junk : Nat → UInt8) : (init junk).WF where
  length_buf := by simp [init]
  ind_le := show rpcHeaderSz ≤ defaultRpcSz by decide
  capa_ge := le_rfl
  capa_lt := show defaultRpcSz < 2 ^ 31 by decide

theorem WF.length_content {m : Marshall} (h : m.WF) : m.content.length = m.ind := by
  rw [Marshall.content, List.length_take, h.length_buf]
  exact Nat.min_eq_left h.ind_le

theorem Appended.nil {m : Marshall} (h : m.WF) : m.Appended [] m where
  wf := h
  content := (List.append_nil _).symm
  ind := rfl
  inPlace _ := ⟨rfl, rfl⟩

theorem Appended.trans {m m₁ m₂ : Marshall} {bs cs : List UInt8} (h : m.Appended bs m₁)
    (h' : m₁.Appended cs m₂) : m.Appended (bs ++ cs) m₂ where
  wf := h'.wf
  content := by rw [h'.content, h.content, List.append_assoc]
  ind := by rw [h'.ind, h.ind, List.length_append, Nat.add_assoc]
  inPlace hle := by
    rw [List.length_append] at hle
    obtain ⟨hc, hd⟩ := h.inPlace (by omega)
    obtain ⟨hc', hd'⟩ := h'.inPlace (by rw [hc, h.ind]; omega)
    refine ⟨hc'.trans hc, hd'.trans ?_⟩
    rw [h'.ind, ← List.drop_drop, ← List.drop_drop, hd]

theorem appends_nil : Appends some [] := fun m hm _ => ⟨m, rfl, .nil hm⟩

/-- A write followed by a write. -/
theorem Appends.bind {f g : Marshall → Option Marshall} {bs cs : List UInt8} (hf : Appends f bs)
    (hg : Appends g cs) : Appends (fun m => (f m).bind g) (bs ++ cs) := by
  intro m hm hle
  rw [List.length_append] at hle
  obtain ⟨m₁, h₁, ha₁⟩ := hf m hm (by omega)
  obtain ⟨m₂, h₂, ha₂⟩ := hg m₁ ha₁.wf (by rw [ha₁.ind]; omega)
  refine ⟨m₂, ?_, ha₁.trans ha₂⟩
  show (f m).bind g = some m₂
  rw [h₁, Option.bind_some, h₂]

/-! ## The two primitives -/

/-- A larger capacity changes nothing that was written. -/
theorem grow_spec {m : Marshall} (h : m.WF) (capa : Nat) (hle : m.capa ≤ capa)
    (hlt : capa < 2 ^ 31) :
    ∃ m', m.grow capa = some m' ∧ m'.WF ∧ m'.capa = capa ∧ m'.ind = m.ind ∧
      m'.content = m.content := by
  refine ⟨_, if_pos hlt, ?_, rfl, rfl, ?_⟩
  · refine ⟨?_, h.ind_le.trans hle, h.capa_ge.trans hle, hlt⟩
    simp only [List.length_append, List.length_map, List.length_range', h.length_buf]
    omega
  · exact List.take_append_of_le_length (by rw [h.length_buf]; exact h.ind_le)

/-- Writing inside the capacity. -/
theorem copy_spec {m : Marshall} (h : m.WF) {p : List UInt8} (hle : m.ind + p.length ≤ m.capa) :
    m.Appended p (m.copy p) := by
  have hlen := h.length_buf
  have htake : (m.buf.take m.ind).length = m.ind := h.length_content
  have hpre : (m.buf.take m.ind ++ p).length = m.ind + p.length := by
    rw [List.length_append, htake]
  refine ⟨⟨?_, hle, h.capa_ge, h.capa_lt⟩, ?_, rfl, fun _ => ⟨rfl, ?_⟩⟩
  · simp only [copy, List.length_append, htake, List.length_drop, hlen]
    omega
  · simp only [content, copy]
    rw [List.take_append_of_le_length (by rw [hpre]), List.take_of_length_le (by rw [hpre])]
  · simp only [copy]
    rw [List.drop_append_of_le_length (by rw [hpre]), List.drop_of_length_le (by rw [hpre]),
      List.nil_append]

theorem poke_eq_copy {m : Marshall} (x : UInt8) (hlt : m.ind < m.buf.length) :
    m.poke x = m.copy [x] := by
  simp only [poke, copy, List.length_singleton]
  rw [List.set_eq_take_append_cons_drop, if_pos hlt]
  simp

/-- Writing behind a growth that makes room. -/
theorem grow_copy_spec {m : Marshall} (h : m.WF) {p : List UInt8} {capa : Nat}
    (hfull : m.capa < m.ind + p.length) (hroom : m.ind + p.length ≤ capa) (hlt : capa < 2 ^ 31) :
    ∃ m', (m.grow capa).map (·.copy p) = some m' ∧ m.Appended p m' ∧ m'.capa = capa := by
  obtain ⟨m₁, hg, hm₁, hc, hi, hcont⟩ := grow_spec h capa (by omega) hlt
  have hp := copy_spec hm₁ (p := p) (by omega)
  refine ⟨m₁.copy p, by rw [hg]; rfl, ⟨hp.wf, by rw [hp.content, hcont], by rw [hp.ind, hi], ?_⟩,
    hc⟩
  intro hfit
  omega

/-- The capacity a growth for `n` more bytes asks for makes room for them. -/
theorem le_grown {m : Marshall} (h : m.WF) (n : Nat) :
    m.ind + n ≤ if n < m.capa then 2 * m.capa else m.capa + n := by
  have := h.ind_le
  split <;> omega

theorem appends_rawbytes (p : List UInt8) : Appends (fun m => m.rawbytes p) p := by
  intro m hm hle
  show ∃ m', m.rawbytes p = some m' ∧ m.Appended p m'
  unfold rawbytes
  rw [if_neg (by omega)]
  split
  · next hfull =>
      have hind := hm.ind_le
      obtain ⟨m', hg, ha, -⟩ := grow_copy_spec hm hfull (le_grown hm p.length)
        (by split <;> omega)
      exact ⟨m', hg, ha⟩
  · next hroom => exact ⟨m.copy p, rfl, copy_spec hm (by omega)⟩

/-- A byte is written like a string of one. -/
theorem rawbyte_eq_rawbytes {m : Marshall} (h : m.WF) (x : UInt8) :
    m.rawbyte x = m.rawbytes [x] := by
  have hlen := h.length_buf
  have hind := h.ind_le
  have hge : 1024 ≤ m.capa := h.capa_ge
  have hlt := h.capa_lt
  unfold rawbyte rawbytes
  simp only [List.length_singleton]
  by_cases hfull : m.capa ≤ m.ind
  · rw [if_pos hfull, if_pos (show 1 < m.capa by omega), if_pos (show m.capa < m.ind + 1 by omega)]
    by_cases hcap : 2 * m.capa < 2 ^ 31
    · obtain ⟨m₁, hg, hm₁, hc, hi, -⟩ := grow_spec h (2 * m.capa) (by omega) hcap
      rw [if_neg (by omega), hg, Option.map_some, Option.map_some,
        poke_eq_copy x (by rw [hm₁.length_buf]; omega)]
    · have hnone : m.grow (2 * m.capa) = none := if_neg hcap
      rw [hnone]
      split <;> rfl
  · rw [if_neg hfull, if_neg (by omega), if_neg (by omega), poke_eq_copy x (by omega)]

theorem appends_rawbyte (x : UInt8) : Appends (fun m => m.rawbyte x) [x] := by
  intro m hm hle
  show ∃ m', m.rawbyte x = some m' ∧ m.Appended [x] m'
  rw [rawbyte_eq_rawbytes hm]
  exact appends_rawbytes [x] m hm hle

/-! ## The operators -/

theorem appends_putWord (w x : Nat) :
    Appends (fun m => m.putWord w x) (BigEndian.encode w x) := by
  induction w with
  | zero => exact appends_nil
  | succ w ih =>
      rw [BigEndian.encode_succ]
      exact (appends_rawbyte _).bind ih

/-- A count is written as an `unsigned int`. -/
theorem encode_count (n : Nat) :
    BigEndian.encode 4 (UInt32.ofNat n).toNat = BigEndian.encode 4 n := by
  have hmod : n = n / 256 ^ 4 * 256 ^ 4 + n % 256 ^ 4 := by
    rw [Nat.mul_comm]
    exact (Nat.div_add_mod n (256 ^ 4)).symm
  have hval : (UInt32.ofNat n).toNat = n % 256 ^ 4 := by simp
  conv => rhs; rw [hmod, BigEndian.encode_mul_add]
  rw [hval]

theorem appends_putUInt (x : UInt32) :
    Appends (fun m => m.putUInt x) (BigEndian.encode 4 x.toNat) := appends_putWord 4 x.toNat

theorem appends_putCount (n : Nat) :
    Appends (fun m => m.putUInt (UInt32.ofNat n)) (BigEndian.encode 4 n) := by
  rw [← encode_count]
  exact appends_putUInt _

/-- The high half of a 64-bit number. -/
theorem toNat_high (x : UInt64) : (x >>> 32).toUInt32.toNat = x.toNat / 256 ^ 4 := by
  have hlt := x.toNat_lt
  rw [UInt64.toNat_toUInt32, UInt64.toNat_shiftRight]
  simp only [UInt64.reduceToNat, Nat.reduceMod, Nat.shiftRight_eq_div_pow]
  omega

theorem appends_putULongLong (x : UInt64) :
    Appends (fun m => m.putULongLong x) (BigEndian.encode 8 x.toNat) := by
  have hlow : BigEndian.encode 4 x.toUInt32.toNat = BigEndian.encode 4 x.toNat :=
    encode_count x.toNat
  rw [show (8 : Nat) = 4 + 4 from rfl, BigEndian.encode_add, ← toNat_high, ← hlow]
  exact (appends_putUInt _).bind (appends_putUInt _)

theorem appends_putElems {α : Type} {put : Marshall → α → Option Marshall}
    {enc : α → List UInt8} (l : List α) (h : ∀ x ∈ l, Appends (fun m => put m x) (enc x)) :
    Appends (fun m => putElems put m l) (l.flatMap enc) := by
  induction l with
  | nil => exact appends_nil
  | cons x l ih =>
      rw [List.flatMap_cons]
      exact (h x List.mem_cons_self).bind (ih fun y hy => h y (List.mem_cons_of_mem x hy))

/-- `operator<<` writes the encoding. -/
theorem appends_put (t : Ty) (x : t.den) : Appends (fun m => put t m x) (enc t x) := by
  induction t with
  | bool => exact appends_rawbyte _
  | char => exact appends_rawbyte _
  | uchar => exact appends_rawbyte _
  | short => exact appends_putWord 2 _
  | ushort => exact appends_putWord 2 _
  | int => exact appends_putWord 4 _
  | uint => exact appends_putWord 4 _
  | ulonglong => exact appends_putULongLong x
  | string => exact (appends_putCount _).bind (appends_rawbytes x)
  | vector t ih => exact (appends_putCount _).bind (appends_putElems x fun y _ => ih y)
  | map a b iha ihb =>
      exact (appends_putCount _).bind
        (appends_putElems (SortedMap.entries x) fun p _ => (iha p.1).bind (ihb p.2))

theorem appends_putAll (vs : List Value) : Appends (fun m => m.putAll vs) (payload vs) :=
  appends_putElems vs fun v _ => appends_put v.1 v.2

/-! ## Headers -/

/-- The bytes of packed fields. -/
def fieldBytes (xs : List Int32) : List UInt8 :=
  xs.flatMap fun x => BigEndian.encode 4 x.toUInt32.toNat

@[simp] theorem length_fieldBytes (xs : List Int32) : (fieldBytes xs).length = 4 * xs.length := by
  induction xs with
  | nil => rfl
  | cons x xs ih =>
      simp only [fieldBytes, List.flatMap_cons, List.length_append, BigEndian.length_encode,
        List.length_cons] at ih ⊢
      omega

theorem appends_packAll (xs : List Int32) : Appends (fun m => m.packAll xs) (fieldBytes xs) := by
  induction xs with
  | nil => exact appends_nil
  | cons x xs ih => exact (appends_putWord 4 _).bind ih

/-- Packing a header that fits into `RPC_HEADER_SZ` overwrites the bytes behind
the size and nothing else. -/
theorem packHeader_spec {m : Marshall} (h : m.WF) {xs : List Int32}
    (hfit : rpcSzSize + 4 * xs.length ≤ rpcHeaderSz) (hind : rpcHeaderSz ≤ m.ind) :
    ∃ m', m.packHeader xs = some m' ∧ m'.WF ∧ m'.capa = m.capa ∧ m'.ind = m.ind ∧
      m'.content = m.content.take rpcSzSize ++ fieldBytes xs ++
        m.content.drop (rpcSzSize + 4 * xs.length) := by
  have hle := h.ind_le
  have hsz : rpcHeaderSz = 24 := rfl
  have hm₀ : WF { m with ind := rpcSzSize } :=
    ⟨h.length_buf, show rpcSzSize ≤ m.capa by omega, h.capa_ge, h.capa_lt⟩
  have hroom : rpcSzSize + (fieldBytes xs).length ≤ m.capa := by
    rw [length_fieldBytes]
    omega
  obtain ⟨m₁, hp, hm₁⟩ := appends_packAll xs _ hm₀
    (show rpcSzSize + (fieldBytes xs).length ≤ 2 ^ 30 by rw [length_fieldBytes]; omega)
  have hp : packAll { m with ind := rpcSzSize } xs = some m₁ := hp
  have hc : m₁.capa = m.capa := (hm₁.inPlace hroom).1
  have hdrop : m₁.buf.drop m₁.ind = m.buf.drop m₁.ind := (hm₁.inPlace hroom).2
  have hi : m₁.ind = rpcSzSize + 4 * xs.length := by rw [hm₁.ind, length_fieldBytes]
  refine ⟨{ m₁ with ind := m.ind }, ?_, ⟨hm₁.wf.length_buf, ?_, hm₁.wf.capa_ge, hm₁.wf.capa_lt⟩,
    hc, rfl, ?_⟩
  · unfold packHeader
    rw [hp, Option.map_some]
  · show m.ind ≤ m₁.capa
    rw [hc]
    exact hle
  · have htake : m₁.buf.take m₁.ind = m.buf.take rpcSzSize ++ fieldBytes xs := hm₁.content
    have hlen : (m.buf.take rpcSzSize ++ fieldBytes xs).length = m₁.ind := by
      rw [← htake, List.length_take, hm₁.wf.length_buf]
      exact Nat.min_eq_left hm₁.wf.ind_le
    have hbuf : m₁.buf = m.buf.take rpcSzSize ++ fieldBytes xs ++ m.buf.drop m₁.ind := by
      rw [← hdrop, ← htake, List.take_append_drop]
    have hrest : m.ind = m₁.ind + (m.ind - m₁.ind) := by omega
    show m₁.buf.take m.ind = _
    rw [hbuf, List.take_append, hlen, List.take_of_length_le (by rw [hlen]; omega)]
    simp only [content]
    rw [List.take_take, Nat.min_eq_left (by omega), List.drop_take, ← hi]

end Marshall

end RpcLock
