import RpcLock.Marshall.Put

/-!
# What `operator>>` reads

`Yields f bs x` says that `f`, run where the buffer continues with the bytes `bs`
and all of them are inside the PDU, returns `x` and moves the read position
behind them.  It is closed under chaining, as the writes are, and `operator>>`
yields a value from its encoding.
-/

namespace RpcLock

/-! ## Bytes and words -/

/-- The sign extension of `rawbyte` does not survive the mask. -/
theorem signExtend_and (b : UInt8) : (Unmarshall.signExtend b &&& 0xff).toNat = b.toNat := by
  have h : ∀ b : BitVec 8, ((b.signExtend 32) &&& 255#32).toNat = b.toNat := by decide +kernel
  exact h b.toBitVec

theorem toUInt8_signExtend (b : UInt8) : (Unmarshall.signExtend b).toUInt8 = b := by
  have h : ∀ b : BitVec 8, (b.signExtend 32).setWidth 8 = b := by decide +kernel
  exact UInt8.toBitVec_inj.mp (h b.toBitVec)

/-- A value has at least one byte. -/
theorem enc_pos (t : Ty) (x : t.den) : 0 < (enc t x).length := by
  have hcount : ∀ n (l : List UInt8), 0 < (BigEndian.encode 4 n ++ l).length := by
    intro n l
    rw [List.length_append, BigEndian.length_encode]
    omega
  cases t with
  | bool | char | uchar => exact Nat.one_pos
  | short | ushort | int | uint | ulonglong => simp [enc]
  | string | vector t | map a b => exact hcount _ _

theorem length_le_flatMap {α : Type} {f : α → List UInt8} {l : List α}
    (h : ∀ x ∈ l, 0 < (f x).length) : l.length ≤ (l.flatMap f).length := by
  induction l with
  | nil => exact le_rfl
  | cons x l ih =>
      have hx := h x List.mem_cons_self
      have hl := ih fun y hy => h y (List.mem_cons_of_mem x hy)
      rw [List.flatMap_cons, List.length_append, List.length_cons]
      omega

namespace Unmarshall

/-! ## Chains of reads -/

/-- Nothing has failed, and the PDU is in the buffer. -/
structure Ready (u : Unmarshall) : Prop where
  ok : u.ok = true
  sz_le : u.sz ≤ u.buf.length
  sz_lt : u.sz < 2 ^ 31

/-- The read position `n` bytes on. -/
def advance (u : Unmarshall) (n : Nat) : Unmarshall := { u with ind := u.ind + n }

theorem Ready.advance {u : Unmarshall} (h : u.Ready) (n : Nat) :
    (u.advance n).Ready := ⟨h.1, h.2, h.3⟩

/-- A read of `x` from the bytes `bs`. -/
def Yields {α : Type} (f : Unmarshall → α × Unmarshall) (bs : List UInt8) (x : α) : Prop :=
  ∀ u : Unmarshall, ∀ rest, u.Ready → u.buf.drop u.ind = bs ++ rest → u.ind + bs.length ≤ u.sz →
    f u = (x, u.advance bs.length)

variable {α β : Type} {f : Unmarshall → α × Unmarshall} {bs cs : List UInt8} {x : α}

theorem yields_nil (x : α) : Yields (fun u => (x, u)) [] x := fun _ _ _ _ _ => rfl

/-- Where a read ends, the next one can start. -/
theorem Yields.run (hf : Yields f bs x) {u : Unmarshall} {rest : List UInt8} (hu : u.Ready)
    (hbuf : u.buf.drop u.ind = bs ++ rest) (hle : u.ind + bs.length ≤ u.sz) :
    f u = (x, u.advance bs.length) ∧ (u.advance bs.length).Ready ∧
      (u.advance bs.length).buf.drop (u.advance bs.length).ind = rest := by
  refine ⟨hf u rest hu hbuf hle, hu.advance _, ?_⟩
  simp only [Unmarshall.advance]
  rw [← List.drop_drop, hbuf, List.drop_left]

/-- A read followed by a read. -/
theorem Yields.bind (hf : Yields f bs x) {g : α → Unmarshall → β × Unmarshall} {y : β}
    (hg : Yields (g x) cs y) :
    Yields (fun u => g (f u).1 (f u).2) (bs ++ cs) y := by
  intro u rest hu hbuf hle
  rw [List.append_assoc] at hbuf
  rw [List.length_append] at hle
  obtain ⟨h₁, hu₁, hbuf₁⟩ := hf.run hu hbuf (by omega)
  have h₂ := hg (u.advance bs.length) rest hu₁ hbuf₁ (by simp only [Unmarshall.advance]; omega)
  simp only [h₁]
  rw [h₂, List.length_append]
  simp only [Unmarshall.advance, Nat.add_assoc]

theorem Yields.map (hf : Yields f bs x) (k : α → β) :
    Yields (fun u => (k (f u).1, (f u).2)) bs (k x) := by
  intro u rest hu hbuf hle
  simp only [hf u rest hu hbuf hle]

/-- The test of `ok()` between two reads. -/
theorem Yields.ifOk (hf : Yields f bs x) (e : Unmarshall → α × Unmarshall) :
    Yields (fun u => if u.ok then f u else e u) bs x := by
  intro u rest hu hbuf hle
  simp only [hu.ok, if_true]
  exact hf u rest hu hbuf hle

/-- Only bytes that fit into a PDU are read. -/
theorem Yields.of_lt (h : bs.length < 2 ^ 31 → Yields f bs x) : Yields f bs x := by
  intro u rest hu hbuf hle
  have hsz := hu.sz_lt
  exact h (by omega) u rest hu hbuf hle

/-! ## The primitives -/

theorem yields_rawbyte (b : UInt8) : Yields rawbyte [b] (signExtend b) := by
  intro u rest hu hbuf hle
  rw [List.length_singleton] at hle
  have hget : u.buf.getD u.ind 0 = b := by
    have h0 : (u.buf.drop u.ind)[0]? = some b := by rw [hbuf]; rfl
    rw [List.getElem?_drop, Nat.add_zero] at h0
    rw [List.getD_eq_getElem?_getD, h0, Option.getD_some]
  unfold rawbyte
  rw [if_neg (by omega), hget]
  rfl

theorem yields_getWord (bs : List UInt8) :
    Yields (fun u => u.getWord bs.length) bs (BigEndian.decode bs) := by
  induction bs with
  | nil => exact yields_nil 0
  | cons b bs ih =>
      rw [BigEndian.decode_cons, ← signExtend_and]
      exact (yields_rawbyte b).bind (g := fun c u =>
        ((c &&& 0xff).toNat <<< (8 * bs.length) ||| (u.getWord bs.length).1,
          (u.getWord bs.length).2))
        (ih.map fun n => (signExtend b &&& 0xff).toNat <<< (8 * bs.length) ||| n)

/-- A word is read as it was written. -/
theorem yields_getWord_encode {w n : Nat} (h : n < 256 ^ w) :
    Yields (fun u => u.getWord w) (BigEndian.encode w n) n := by
  have hw := yields_getWord (BigEndian.encode w n)
  rwa [BigEndian.length_encode, BigEndian.decode_encode h] at hw

theorem yields_rawbytes (s : List UInt8) (p : List UInt8) :
    Yields (fun u => u.rawbytes s (UInt32.ofNat p.length)) p p := by
  intro u rest hu hbuf hle
  have hsz := hu.sz_lt
  have hn : (UInt32.ofNat p.length).toNat = p.length :=
    UInt32.toNat_ofNat_of_lt' (show p.length < 2 ^ 32 by omega)
  have hmod : (u.ind + p.length) % 2 ^ 32 = u.ind + p.length := Nat.mod_eq_of_lt (by omega)
  have hin : ¬ u.buf.length < u.ind + p.length := by
    have := hu.sz_le
    omega
  show u.rawbytes s (UInt32.ofNat p.length) = _
  unfold rawbytes
  simp only [hn, hmod]
  rw [if_neg (by omega), hbuf, List.take_left]
  simp only [hin, decide_false, Bool.or_false]
  rfl

/-! ## The operators -/

theorem yields_getUInt (x : UInt32) :
    Yields (fun u => u.getUInt) (BigEndian.encode 4 x.toNat) x := by
  have hw := (yields_getWord_encode (w := 4) x.toNat_lt).map UInt32.ofNat
  rwa [UInt32.ofNat_toNat] at hw

theorem yields_getUShort (x : UInt16) :
    Yields (fun u => u.getUShort) (BigEndian.encode 2 x.toNat) x := by
  have hw := (yields_getWord_encode (w := 2) x.toNat_lt).map UInt16.ofNat
  rwa [UInt16.ofNat_toNat] at hw

theorem yields_getInt (x : Int32) :
    Yields (fun u => u.getInt) (BigEndian.encode 4 x.toUInt32.toNat) x := by
  have hw := (yields_getUInt x.toUInt32).map UInt32.toInt32
  rwa [Int32.toInt32_toUInt32] at hw

theorem yields_getShort (x : Int16) :
    Yields (fun u => u.getShort) (BigEndian.encode 2 x.toUInt16.toNat) x := by
  have hw := (yields_getUShort x.toUInt16).map UInt16.toInt16
  rwa [Int16.toInt16_toUInt16] at hw

theorem yields_getUChar (x : UInt8) : Yields (fun u => u.getUChar) [x] x := by
  have hw := (yields_rawbyte x).map UInt32.toUInt8
  rwa [toUInt8_signExtend] at hw

theorem yields_getChar (x : Int8) : Yields (fun u => u.getChar) [x.toUInt8] x := by
  have hw := (yields_getUChar x.toUInt8).map UInt8.toInt8
  rwa [Int8.toInt8_toUInt8] at hw

theorem yields_getBool (x : Bool) : Yields (fun u => u.getBool) [if x then 1 else 0] x := by
  have hw := (yields_rawbyte (if x then 1 else 0)).map fun b => b != 0
  have hx : (signExtend (if x then 1 else 0) != 0) = x := by cases x <;> decide
  rwa [hx] at hw

/-- The two halves of a 64-bit number. -/
theorem or_high_low (x : UInt64) :
    x.toUInt32.toUInt64 ||| ((x >>> 32).toUInt32.toUInt64 <<< 32) = x := by
  have hlt : x.toNat < 2 ^ 64 := x.toNat_lt
  have hlow : x.toNat % 2 ^ 32 < 2 ^ 32 := Nat.mod_lt _ (by decide)
  have hhigh : (x.toNat / 256 ^ 4) <<< 32 < 2 ^ 64 := by
    rw [Nat.shiftLeft_eq]
    omega
  apply UInt64.toNat_inj.mp
  rw [UInt64.toNat_or, UInt64.toNat_shiftLeft, UInt32.toNat_toUInt64, UInt32.toNat_toUInt64,
    Marshall.toNat_high, UInt64.toNat_toUInt32]
  show x.toNat % 2 ^ 32 ||| (x.toNat / 256 ^ 4) <<< 32 % 2 ^ 64 = x.toNat
  rw [Nat.mod_eq_of_lt hhigh, Nat.or_comm, ← Nat.shiftLeft_add_eq_or_of_lt hlow, Nat.shiftLeft_eq]
  omega

theorem yields_getULongLong (x : UInt64) :
    Yields (fun u => u.getULongLong) (BigEndian.encode 8 x.toNat) x := by
  have hlow : BigEndian.encode 4 x.toUInt32.toNat = BigEndian.encode 4 x.toNat :=
    Marshall.encode_count x.toNat
  rw [show (8 : Nat) = 4 + 4 from rfl, BigEndian.encode_add, ← Marshall.toNat_high, ← hlow]
  intro u rest hu hbuf hle
  rw [List.append_assoc] at hbuf
  rw [List.length_append, BigEndian.length_encode, BigEndian.length_encode] at hle
  obtain ⟨h₁, hu₁, hb₁⟩ := (yields_getUInt (x >>> 32).toUInt32).run hu hbuf
    (by rw [BigEndian.length_encode]; omega)
  obtain ⟨h₂, -, -⟩ := (yields_getUInt x.toUInt32).run hu₁ hb₁
    (by simp only [advance, BigEndian.length_encode]; omega)
  simp only [getULongLong, h₁, h₂, or_high_low, List.length_append]
  simp only [advance, Nat.add_assoc]

/-- A count that fits. -/
theorem yields_getCount {n : Nat} (h : n < 2 ^ 32) :
    Yields (fun u => u.getUInt) (BigEndian.encode 4 n) (UInt32.ofNat n) := by
  have hw := yields_getUInt (UInt32.ofNat n)
  rwa [UInt32.toNat_ofNat_of_lt' h] at hw

theorem yields_getString (s p : StdString) :
    Yields (fun u => u.getString s) (BigEndian.encode 4 p.length ++ p) p := by
  refine .of_lt fun hlt => ?_
  rw [List.length_append] at hlt
  exact (yields_getCount (by omega)).bind
    (g := fun sz u => if u.ok then u.rawbytes s sz else (s, u))
    ((yields_rawbytes s p).ifOk fun u => (s, u))

theorem yields_getElems {get : Unmarshall → α × Unmarshall} {enc : α → List UInt8} (l : List α)
    (h : ∀ x ∈ l, Yields get (enc x) x) (v : List α) :
    Yields (fun u => getElems get l.length v u) (l.flatMap enc) (v ++ l) := by
  induction l generalizing v with
  | nil =>
      rw [List.append_nil]
      exact yields_nil v
  | cons x l ih =>
      rw [List.flatMap_cons, List.append_cons]
      exact (h x List.mem_cons_self).bind (g := fun z u => getElems get l.length (v ++ [z]) u)
        (ih (fun y hy => h y (List.mem_cons_of_mem x hy)) (v ++ [x]))

theorem yields_getVector {get : Unmarshall → α × Unmarshall} {enc : α → List UInt8}
    (l : List α) (h : ∀ x ∈ l, Yields get (enc x) x) (hpos : ∀ x ∈ l, 0 < (enc x).length)
    (v : List α) :
    Yields (fun u => getVector get v u) (BigEndian.encode 4 l.length ++ l.flatMap enc)
      (v ++ l) := by
  refine .of_lt fun hlt => ?_
  have hlen := length_le_flatMap hpos
  rw [List.length_append] at hlt
  have hn : (UInt32.ofNat l.length).toNat = l.length :=
    UInt32.toNat_ofNat_of_lt' (show l.length < 2 ^ 32 by omega)
  refine (yields_getCount (by omega)).bind (g := fun n u => getElems get n.toNat v u) ?_
  rw [hn]
  exact yields_getElems l h v

/-- The entries of a map arrive in the order of their keys, so each one goes to
the end of the map built so far. -/
theorem yields_getEntries {κ ν : Type} [LinearOrder κ] {getKey : Unmarshall → κ × Unmarshall}
    {getVal : Unmarshall → ν × Unmarshall} {encKey : κ → List UInt8} {encVal : ν → List UInt8}
    (hkey : ∀ a, Yields getKey (encKey a) a) (hval : ∀ b, Yields getVal (encVal b) b)
    (l : List (κ × ν)) (d d' : SortedMap κ ν) (hd : d'.entries = d.entries ++ l) :
    Yields (fun u => getEntries getKey getVal l.length d u)
      (l.flatMap fun p => encKey p.1 ++ encVal p.2) d' := by
  induction l generalizing d with
  | nil =>
      have he : d' = d := SortedMap.ext (by rw [hd, List.append_nil])
      rw [he]
      exact yields_nil d
  | cons p l ih =>
      have hlast : ∀ q ∈ d.entries, q.1 < p.1 := by
        intro q hq
        have hs := d'.sorted
        rw [hd] at hs
        exact (List.pairwise_append.mp hs).2.2 q hq p List.mem_cons_self
      have hset : d'.entries = (d.set p.1 p.2).entries ++ l := by
        rw [SortedMap.set_of_forall_lt p.2 hlast, hd, List.append_assoc]
        rfl
      rw [List.flatMap_cons, List.append_assoc]
      exact (hkey p.1).bind
        (g := fun a u => getEntries getKey getVal l.length (d.set a (getVal u).1) (getVal u).2)
        ((hval p.2).bind (g := fun b u => getEntries getKey getVal l.length (d.set p.1 b) u)
          (ih _ hset))

theorem yields_getMap {κ ν : Type} [LinearOrder κ] {getKey : Unmarshall → κ × Unmarshall}
    {getVal : Unmarshall → ν × Unmarshall} {encKey : κ → List UInt8} {encVal : ν → List UInt8}
    (hkey : ∀ a, Yields getKey (encKey a) a) (hval : ∀ b, Yields getVal (encVal b) b)
    (hpos : ∀ a, 0 < (encKey a).length) (d : SortedMap κ ν) :
    Yields (fun u => getMap getKey getVal u)
      (BigEndian.encode 4 d.entries.length ++
        d.entries.flatMap fun p => encKey p.1 ++ encVal p.2) d := by
  refine .of_lt fun hlt => ?_
  have hlen : d.entries.length ≤
      (d.entries.flatMap fun p => encKey p.1 ++ encVal p.2).length := by
    refine length_le_flatMap fun p _ => ?_
    have := hpos p.1
    rw [List.length_append]
    omega
  rw [List.length_append] at hlt
  have hn : (UInt32.ofNat d.entries.length).toNat = d.entries.length :=
    UInt32.toNat_ofNat_of_lt' (show d.entries.length < 2 ^ 32 by omega)
  refine (yields_getCount (by omega)).bind
    (g := fun n u => getEntries getKey getVal n.toNat .empty u) ?_
  rw [hn]
  exact yields_getEntries hkey hval d.entries .empty d rfl

/-- `operator>>` into a fresh object reads a value from its encoding. -/
theorem yields_get (t : Ty) (x : t.den) : Yields (get t) (enc t x) x := by
  induction t with
  | bool => exact yields_getBool x
  | char => exact yields_getChar x
  | uchar => exact yields_getUChar x
  | short => exact yields_getShort x
  | ushort => exact yields_getUShort x
  | int => exact yields_getInt x
  | uint => exact yields_getUInt x
  | ulonglong => exact yields_getULongLong x
  | string => exact yields_getString [] x
  | vector t ih => exact yields_getVector x (fun y _ => ih y) (fun y _ => enc_pos t y) []
  | map a b iha ihb => exact yields_getMap iha ihb (enc_pos a) x

/-- The values of a list are read one after the other. -/
theorem yields_getAll (vs : List Value) :
    Yields (getAll (vs.map Sigma.fst)) (payload vs) vs := by
  induction vs with
  | nil => exact yields_nil []
  | cons v vs ih =>
      obtain ⟨t, x⟩ := v
      exact (yields_get t x).bind
        (g := fun x u => (⟨t, x⟩ :: (getAll (vs.map Sigma.fst) u).1,
          (getAll (vs.map Sigma.fst) u).2)) (ih.map fun ws => ⟨t, x⟩ :: ws)

/-! ## Headers -/

theorem yields_unpack (x : Int32) :
    Yields (fun u => u.unpack) (BigEndian.encode 4 x.toUInt32.toNat) x := yields_getInt x

/-- One field of a header. -/
theorem unpack_run {u : Unmarshall} {x : Int32} {rest : List UInt8} (hu : u.Ready)
    (hbuf : u.buf.drop u.ind = BigEndian.encode 4 x.toUInt32.toNat ++ rest)
    (hle : u.ind + 4 ≤ u.sz) :
    u.unpack = (x, u.advance 4) ∧ (u.advance 4).Ready ∧
      (u.advance 4).buf.drop (u.advance 4).ind = rest := by
  have h := (yields_unpack x).run hu hbuf (by rwa [BigEndian.length_encode])
  rwa [BigEndian.length_encode] at h

theorem advance_advance (u : Unmarshall) (n k : Nat) :
    (u.advance n).advance k = u.advance (n + k) := by
  simp only [advance, Nat.add_assoc]

theorem yields_unpackReqFields (h : ReqHeader) :
    Yields unpackReqFields (Marshall.fieldBytes h.fields) h := by
  intro u rest hu hbuf hle
  rw [Marshall.length_fieldBytes] at hle ⊢
  have hle : u.ind + 20 ≤ u.sz := hle
  simp only [Marshall.fieldBytes, ReqHeader.fields, List.flatMap_cons, List.flatMap_nil,
    List.append_assoc] at hbuf
  obtain ⟨h₁, hu₁, hb₁⟩ := unpack_run hu hbuf (by omega)
  obtain ⟨h₂, hu₂, hb₂⟩ := unpack_run hu₁ hb₁ (show u.ind + 4 + 4 ≤ u.sz by omega)
  obtain ⟨h₃, hu₃, hb₃⟩ := unpack_run hu₂ hb₂ (show u.ind + 4 + 4 + 4 ≤ u.sz by omega)
  obtain ⟨h₄, hu₄, hb₄⟩ := unpack_run hu₃ hb₃ (show u.ind + 4 + 4 + 4 + 4 ≤ u.sz by omega)
  obtain ⟨h₅, -, -⟩ := unpack_run hu₄ hb₄ (show u.ind + 4 + 4 + 4 + 4 + 4 ≤ u.sz by omega)
  simp only [unpackReqFields, h₁, h₂, h₃, h₄, h₅, UInt32.toUInt32_toInt32]
  rw [advance_advance, advance_advance, advance_advance, advance_advance]
  rfl

theorem yields_unpackReplyFields (h : ReplyHeader) :
    Yields unpackReplyFields (Marshall.fieldBytes h.fields) h := by
  intro u rest hu hbuf hle
  rw [Marshall.length_fieldBytes] at hle ⊢
  have hle : u.ind + 8 ≤ u.sz := hle
  simp only [Marshall.fieldBytes, ReplyHeader.fields, List.flatMap_cons, List.flatMap_nil,
    List.append_assoc] at hbuf
  obtain ⟨h₁, hu₁, hb₁⟩ := unpack_run hu hbuf (by omega)
  obtain ⟨h₂, -, -⟩ := unpack_run hu₁ hb₁ (show u.ind + 4 + 4 ≤ u.sz by omega)
  simp only [unpackReplyFields, h₁, h₂]
  rw [advance_advance]
  rfl

end Unmarshall

end RpcLock
