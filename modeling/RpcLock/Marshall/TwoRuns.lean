import RpcLock.Marshall.RoundTrip

/-!
# Two runs on different memory

What a marshalled message owes to the memory that `malloc` and `realloc`
return.  `Lockstep f bs` says that `f`, run on two buffers of one shape, fails in
both or appends `bs` to both.  The header region is sized for a request, so the
size, the fields and the values cover a request completely and leave the last
twelve bytes of the region of a reply as they were.
-/

namespace RpcLock

namespace Marshall

/-- Capacity and write position agree.  They decide whether a write grows the
buffer and whether that fails. -/
structure SameShape (m n : Marshall) : Prop where
  capa : m.capa = n.capa
  ind : m.ind = n.ind

/-- The same write on two buffers of one shape. -/
def Lockstep (f : Marshall → Option Marshall) (bs : List UInt8) : Prop :=
  ∀ m n : Marshall, m.WF → n.WF → m.SameShape n → (f m = none ∧ f n = none) ∨
    ∃ m' n', f m = some m' ∧ f n = some n' ∧ m.Appended bs m' ∧ n.Appended bs n' ∧
      m'.SameShape n'

variable {f g : Marshall → Option Marshall} {bs cs : List UInt8}

theorem lockstep_nil : Lockstep some [] := fun m n hm hn hs =>
  .inr ⟨m, n, rfl, rfl, .nil hm, .nil hn, hs⟩

theorem Lockstep.bind (hf : Lockstep f bs) (hg : Lockstep g cs) :
    Lockstep (fun m => (f m).bind g) (bs ++ cs) := by
  intro m n hm hn hs
  rcases hf m n hm hn hs with ⟨h₁, h₂⟩ | ⟨m₁, n₁, h₁, h₂, ha, hb, hs₁⟩
  · exact .inl ⟨by simp only [h₁, Option.bind_none], by simp only [h₂, Option.bind_none]⟩
  · simp only [h₁, h₂, Option.bind_some]
    rcases hg m₁ n₁ ha.wf hb.wf hs₁ with hnone | ⟨m₂, n₂, h₃, h₄, ha', hb', hs₂⟩
    · exact .inl hnone
    · exact .inr ⟨m₂, n₂, h₃, h₄, ha.trans ha', hb.trans hb', hs₂⟩

/-! ## The primitives -/

theorem Appended.sameShape {m n m' n' : Marshall} (hs : m.SameShape n) (ha : m.Appended bs m')
    (hb : n.Appended bs n') (hc : m'.capa = n'.capa) : m'.SameShape n' :=
  ⟨hc, by rw [ha.ind, hb.ind, hs.ind]⟩

/-- The three outcomes of a copy depend on the shape only. -/
theorem lockstep_rawbytes (p : List UInt8) : Lockstep (fun m => m.rawbytes p) p := by
  intro m n hm hn hs
  show (m.rawbytes p = none ∧ n.rawbytes p = none) ∨ ∃ m' n',
    m.rawbytes p = some m' ∧ n.rawbytes p = some n' ∧ m.Appended p m' ∧ n.Appended p n' ∧
      m'.SameShape n'
  unfold rawbytes
  dsimp only
  rw [← hs.ind, ← hs.capa]
  by_cases hbig : 2 ^ 31 ≤ m.ind + p.length
  · simp only [if_pos hbig]
    exact .inl ⟨trivial, trivial⟩
  simp only [if_neg hbig]
  by_cases hfull : m.capa < m.ind + p.length
  · simp only [if_pos hfull]
    have hroom := le_grown hm p.length
    generalize (if p.length < m.capa then 2 * m.capa else m.capa + p.length) = capa at hroom ⊢
    by_cases hlt : capa < 2 ^ 31
    · obtain ⟨m', hg, ha, hc⟩ := grow_copy_spec hm hfull hroom hlt
      obtain ⟨n', hg', hb, hc'⟩ := grow_copy_spec hn (hs.ind ▸ hs.capa ▸ hfull) (hs.ind ▸ hroom) hlt
      exact .inr ⟨m', n', hg, hg', ha, hb, ha.sameShape hs hb (hc.trans hc'.symm)⟩
    · have hnone : ∀ k : Marshall, k.grow capa = none := fun k => if_neg hlt
      exact .inl ⟨by rw [hnone]; rfl, by rw [hnone]; rfl⟩
  · simp only [if_neg hfull]
    have ha := copy_spec hm (p := p) (by omega)
    have hb := copy_spec hn (p := p) (by rw [← hs.ind, ← hs.capa]; omega)
    exact .inr ⟨_, _, rfl, rfl, ha, hb, ha.sameShape hs hb hs.capa⟩

theorem lockstep_rawbyte (x : UInt8) : Lockstep (fun m => m.rawbyte x) [x] := by
  intro m n hm hn hs
  have h := lockstep_rawbytes [x] m n hm hn hs
  simp only [rawbyte_eq_rawbytes hm, rawbyte_eq_rawbytes hn]
  exact h

/-! ## The operators -/

theorem lockstep_putWord (w x : Nat) :
    Lockstep (fun m => m.putWord w x) (BigEndian.encode w x) := by
  induction w with
  | zero => exact lockstep_nil
  | succ w ih =>
      rw [BigEndian.encode_succ]
      exact (lockstep_rawbyte _).bind ih

theorem lockstep_putCount (n : Nat) :
    Lockstep (fun m => m.putUInt (UInt32.ofNat n)) (BigEndian.encode 4 n) := by
  rw [← encode_count]
  exact lockstep_putWord 4 _

theorem lockstep_putULongLong (x : UInt64) :
    Lockstep (fun m => m.putULongLong x) (BigEndian.encode 8 x.toNat) := by
  have hlow : BigEndian.encode 4 x.toUInt32.toNat = BigEndian.encode 4 x.toNat :=
    encode_count x.toNat
  rw [show (8 : Nat) = 4 + 4 from rfl, BigEndian.encode_add, ← toNat_high, ← hlow]
  exact (lockstep_putWord 4 _).bind (lockstep_putWord 4 _)

theorem lockstep_putElems {α : Type} {put : Marshall → α → Option Marshall}
    {enc : α → List UInt8} (l : List α) (h : ∀ x ∈ l, Lockstep (fun m => put m x) (enc x)) :
    Lockstep (fun m => putElems put m l) (l.flatMap enc) := by
  induction l with
  | nil => exact lockstep_nil
  | cons x l ih =>
      rw [List.flatMap_cons]
      exact (h x List.mem_cons_self).bind (ih fun y hy => h y (List.mem_cons_of_mem x hy))

theorem lockstep_put (t : Ty) (x : t.den) : Lockstep (fun m => put t m x) (enc t x) := by
  induction t with
  | bool => exact lockstep_rawbyte _
  | char => exact lockstep_rawbyte _
  | uchar => exact lockstep_rawbyte _
  | short => exact lockstep_putWord 2 _
  | ushort => exact lockstep_putWord 2 _
  | int => exact lockstep_putWord 4 _
  | uint => exact lockstep_putWord 4 _
  | ulonglong => exact lockstep_putULongLong x
  | string => exact (lockstep_putCount _).bind (lockstep_rawbytes x)
  | vector t ih => exact (lockstep_putCount _).bind (lockstep_putElems x fun y _ => ih y)
  | map a b iha ihb =>
      exact (lockstep_putCount _).bind
        (lockstep_putElems (SortedMap.entries x) fun p _ => (iha p.1).bind (ihb p.2))

theorem lockstep_putAll (vs : List Value) : Lockstep (fun m => m.putAll vs) (payload vs) :=
  lockstep_putElems vs fun v _ => lockstep_put v.1 v.2

/-- The first bytes of the buffer before anything is written. -/
theorem content_init (junk : Nat → UInt8) :
    (init junk).content = (List.range rpcHeaderSz).map junk := by
  have hmin : min rpcHeaderSz defaultRpcSz = rpcHeaderSz := rfl
  unfold content init
  dsimp only
  rw [← List.map_take, List.take_range, hmin]

end Marshall

/-! ## Messages -/

variable {junk junk' : Nat → UInt8} {h : Header} {pre post : List Value} {m : Marshall}

/-- A message that is built in one run is built in the other, with the same
values and fields. -/
theorem marshalled_twice (hm : marshalled junk h pre post = some m) (junk' : Nat → UInt8) :
    ∃ m', marshalled junk' h pre post = some m' ∧ m'.ind = m.ind ∧
      m.content = wire (Marshall.init junk).content h (pre ++ post) ∧
      m'.content = wire (Marshall.init junk').content h (pre ++ post) := by
  have hwf := Marshall.wf_init junk
  have hwf' := Marshall.wf_init junk'
  have hle : ∀ {j m₁}, (Marshall.init j).Appended (payload pre) m₁ → rpcHeaderSz ≤ m₁.ind := by
    intro j m₁ ha
    rw [ha.ind]
    exact Nat.le_add_right _ _
  unfold marshalled at hm ⊢
  rcases Marshall.lockstep_putAll pre _ _ hwf hwf' ⟨rfl, rfl⟩ with
    ⟨hnone, -⟩ | ⟨m₁, n₁, h₁, k₁, ha, hb, hs₁⟩
  · simp only [hnone, Option.bind_none] at hm
    cases hm
  obtain ⟨m₂, h₂, hm₂, hc₂, hi₂, hcont₂⟩ := Marshall.packHeader_spec ha.wf h.fields_fit (hle ha)
  obtain ⟨n₂, k₂, hn₂, kc₂, ki₂, kcont₂⟩ := Marshall.packHeader_spec hb.wf h.fields_fit (hle hb)
  have hs₂ : m₂.SameShape n₂ := ⟨by rw [hc₂, kc₂, hs₁.capa], by rw [hi₂, ki₂, hs₁.ind]⟩
  simp only [h₁, Option.bind_some, Marshall.packAny_eq, h₂] at hm
  simp only [k₁, Option.bind_some, Marshall.packAny_eq, k₂]
  rcases Marshall.lockstep_putAll post _ _ hm₂ hn₂ hs₂ with
    ⟨hnone, -⟩ | ⟨m₃, n₃, h₃, k₃, ha₃, hb₃, hs₃⟩
  · simp only [hnone] at hm
    cases hm
  · simp only [h₃] at hm
    cases hm
    exact ⟨n₃, k₃, hs₃.ind.symm, (content_of_steps ha hi₂ hcont₂ ha₃).2,
      (content_of_steps hb ki₂ kcont₂ hb₃).2⟩

/-- The bytes of the header region that are not packed. -/
def Header.Unpacked : Header → Nat → Prop
  | .req _, _ => False
  | .reply _, i => 12 ≤ i ∧ i < 24

/-- What the region keeps of the memory. -/
theorem drop_content_init (junk : Nat → UInt8) (h : Header) :
    (Marshall.init junk).content.drop (rpcSzSize + 4 * h.fields.length) =
      ((List.range rpcHeaderSz).drop (rpcSzSize + 4 * h.fields.length)).map junk := by
  rw [Marshall.content_init, List.map_drop]

theorem drop_content_init_eq_iff (h : Header) :
    (Marshall.init junk).content.drop (rpcSzSize + 4 * h.fields.length) =
        (Marshall.init junk').content.drop (rpcSzSize + 4 * h.fields.length) ↔
      ∀ i, h.Unpacked i → junk i = junk' i := by
  rw [drop_content_init, drop_content_init, List.map_inj_left]
  cases h with
  | req h =>
      have hnil : (List.range rpcHeaderSz).drop (rpcSzSize + 4 * (Header.req h).fields.length) = [] :=
        rfl
      rw [hnil]
      simp [Header.Unpacked]
  | reply h =>
      have hrest : (List.range rpcHeaderSz).drop
          (rpcSzSize + 4 * (Header.reply h).fields.length) = List.range' 12 12 := rfl
      rw [hrest]
      refine forall_congr' fun i => ?_
      rw [List.mem_range'_1]
      rfl

/-- With their sizes put in, two such buffers agree exactly when the memory does
there. -/
theorem putSize_eq_iff {m' : Marshall} {vs : List Value} (hind : m'.ind = m.ind)
    (hc : m.content = wire (Marshall.init junk).content h vs)
    (hc' : m'.content = wire (Marshall.init junk').content h vs) :
    Connection.putSize m.ind m.content = Connection.putSize m'.ind m'.content ↔
      ∀ i, h.Unpacked i → junk i = junk' i := by
  have hlen : ∀ j : Nat → UInt8, (Marshall.init j).content.length = rpcHeaderSz := fun j =>
    (Marshall.wf_init j).length_content
  rw [Connection.putSize, Connection.putSize, hind, hc, hc', List.append_cancel_left_eq,
    show (4 : Nat) = rpcSzSize from rfl, drop_size_wire (hlen junk), drop_size_wire (hlen junk'),
    List.append_cancel_left_eq, List.append_cancel_right_eq]
  exact drop_content_init_eq_iff h

/-- The bytes `writepdu` puts on the socket in two runs are the same exactly
when the runs agree on the bytes of the header region that are not packed: for
every request, and for a reply whose bytes 12 to 23 were the same. -/
theorem wire_agrees_iff (hm : marshalled junk h pre post = some m) (junk' : Nat → UInt8) :
    ∃ m', marshalled junk' h pre post = some m' ∧ m'.ind = m.ind ∧
      (Connection.putSize m.ind m.content = Connection.putSize m'.ind m'.content ↔
        ∀ i, h.Unpacked i → junk i = junk' i) := by
  obtain ⟨m', hm', hind, hc, hc'⟩ := marshalled_twice hm junk'
  exact ⟨m', hm', hind, putSize_eq_iff hind hc hc'⟩

/-- A request on two memories. -/
theorem wire_agrees_request :
    ∃ m m', marshalled (fun _ => 0) (.req ⟨1, 2, 3, 4, 0⟩) [] [] = some m ∧
      marshalled (fun _ => 255) (.req ⟨1, 2, 3, 4, 0⟩) [] [] = some m' ∧
      Connection.putSize m.ind m.content = Connection.putSize m'.ind m'.content := by
  obtain ⟨m, hm, -⟩ := marshalled_content (fun _ => 0) (.req ⟨1, 2, 3, 4, 0⟩) [] [] (by decide)
  obtain ⟨m', hm', -, hiff⟩ := wire_agrees_iff hm fun _ => 255
  exact ⟨m, m', hm, hm', hiff.mpr fun i hi => hi.elim⟩

/-- A reply on the same memories: what is on the wire differs. -/
theorem wire_leaks_reply :
    ∃ m m', marshalled (fun _ => 0) (.reply ⟨1, 0⟩) [⟨.int, (0 : Int32)⟩] [] = some m ∧
      marshalled (fun _ => 255) (.reply ⟨1, 0⟩) [⟨.int, (0 : Int32)⟩] [] = some m' ∧
      Connection.putSize m.ind m.content ≠ Connection.putSize m'.ind m'.content := by
  obtain ⟨m, hm, -⟩ := marshalled_content (fun _ => 0) (.reply ⟨1, 0⟩) [⟨.int, (0 : Int32)⟩] []
    (by decide)
  obtain ⟨m', hm', hind, hc, hc'⟩ := marshalled_twice hm fun _ => 255
  refine ⟨m, m', hm, hm', fun he => ?_⟩
  have hbyte := (putSize_eq_iff hind hc hc').mp he 12 ⟨by decide, by decide⟩
  exact absurd hbyte (by decide)

end RpcLock
