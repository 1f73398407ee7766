import RpcLock.Library.Machine
import RpcLock.Marshall.Put

/-!
# The room in a `marshall`

`rawbyte` and `rawbytes` grow the buffer by different rules.  Here the stores of
an operation are recorded, with the capacity each one finds, and the `int`s it
computes.  Any mix of operations that stays below 2^30 bytes in all stores inside
the buffer and computes no `int` from 2^31 on.

What has been written is a string: the operations append to it, or put a header
over its first bytes.  Growth does not show in it.
-/

namespace RpcLock

/-- What an operation does that has to be in range. -/
inductive Access where
  /-- A byte is stored at an index, with this capacity. -/
  | store (i capa : Nat)
  /-- An `int` is computed. -/
  | int (x : Nat)
deriving DecidableEq, Repr

def Access.InRange : Access → Prop
  | .store i capa => i < capa
  | .int x => x < 2 ^ 31

instance : (a : Access) → Decidable a.InRange
  | .store i capa => inferInstanceAs (Decidable (i < capa))
  | .int x => inferInstanceAs (Decidable (x < 2 ^ 31))

/-- An operation on a `marshall`. -/
inductive MarshallOp where
  | rawbyte (x : UInt8)
  | rawbytes (p : List UInt8)
  | packReqHeader (h : ReqHeader)
  | packReplyHeader (h : ReplyHeader)
deriving DecidableEq

namespace MarshallOp

/-- The bytes the operation adds to the size. -/
def size : MarshallOp → Nat
  | .rawbyte _ => 1
  | .rawbytes p => p.length
  | .packReqHeader _ | .packReplyHeader _ => 0

/-- The fields of a header take the place of the bytes behind the size. -/
def overwrite (c : List UInt8) (xs : List Int32) : List UInt8 :=
  c.take rpcSzSize ++ Marshall.fieldBytes xs ++ c.drop (rpcSzSize + 4 * xs.length)

/-- The operation on what has been written. -/
def write (c : List UInt8) : MarshallOp → List UInt8
  | .rawbyte x => c ++ [x]
  | .rawbytes p => c ++ p
  | .packReqHeader h => overwrite c h.fields
  | .packReplyHeader h => overwrite c h.fields

/-- The bytes a sequence of operations adds. -/
def total (ops : List MarshallOp) : Nat := (ops.map size).sum

@[simp] theorem total_cons (op : MarshallOp) (ops : List MarshallOp) :
    total (op :: ops) = op.size + total ops := rfl

@[simp] theorem total_append (as bs : List MarshallOp) :
    total (as ++ bs) = total as + total bs := by
  unfold total
  rw [List.map_append, List.sum_append]

end MarshallOp

namespace Marshall

/-! ## The record -/

/-- `_buf[_ind++] = x`. -/
def pokeLog (m : Marshall) : List Access := [.store m.ind m.capa, .int (m.ind + 1)]

/-- The accesses of `rawbyte`. -/
def rawbyteLog (m : Marshall) : List Access :=
  if m.capa ≤ m.ind then .int (2 * m.capa) :: (m.grow (2 * m.capa)).elim [] pokeLog
  else m.pokeLog

/-- `memcpy` of `n` bytes, and the step of `_ind`. -/
def copyLog (n : Nat) (m : Marshall) : List Access :=
  (List.range n).map (fun i => .store (m.ind + i) m.capa) ++ [.int (m.ind + n)]

/-- The accesses of `rawbytes`, for `n` bytes. -/
def rawbytesLog (m : Marshall) (n : Nat) : List Access :=
  .int (m.ind + n) ::
    if m.capa < m.ind + n then
      let capa := if n < m.capa then 2 * m.capa else m.capa + n
      .int capa :: (m.grow capa).elim [] (copyLog n)
    else m.copyLog n

def putWordLog (m : Marshall) : Nat → Nat → List Access
  | 0, _ => []
  | w + 1, x =>
      m.rawbyteLog ++ (m.rawbyte (UInt8.ofNat ((x >>> (8 * w)) &&& 0xff))).elim []
        fun m => m.putWordLog w x

def packAllLog (m : Marshall) : List Int32 → List Access
  | [] => []
  | x :: xs => m.putWordLog 4 x.toUInt32.toNat ++ (m.pack x).elim [] fun m => m.packAllLog xs

def packHeaderLog (m : Marshall) (xs : List Int32) : List Access :=
  packAllLog { m with ind := rpcSzSize } xs

def step (m : Marshall) : MarshallOp → Option Marshall
  | .rawbyte x => m.rawbyte x
  | .rawbytes p => m.rawbytes p
  | .packReqHeader h => m.packReqHeader h
  | .packReplyHeader h => m.packReplyHeader h

def accesses (m : Marshall) : MarshallOp → List Access
  | .rawbyte _ => m.rawbyteLog
  | .rawbytes p => m.rawbytesLog p.length
  | .packReqHeader h => m.packHeaderLog h.fields
  | .packReplyHeader h => m.packHeaderLog h.fields

end Marshall

/-- Any sequence of operations on a new `marshall`, with its accesses. -/
def marshallMachine (junk : Nat → UInt8) : Machine (Marshall × List Access) MarshallOp :=
  Machine.recording ⟨.init junk, Marshall.step⟩ Marshall.accesses

namespace Marshall

variable {m m' : Marshall} {f : Marshall → Option Marshall} {bs cs : List UInt8}
  {log log' : Marshall → List Access}

/-! ## In range -/

/-- A write of the bytes `bs` has all its accesses in range. -/
def Safe (log : Marshall → List Access) (bs : List UInt8) : Prop :=
  ∀ m : Marshall, m.WF → m.ind + bs.length ≤ 2 ^ 30 → ∀ a ∈ log m, a.InRange

theorem safe_nil : Safe (fun _ => []) [] := fun _ _ _ _ ha => absurd ha List.not_mem_nil

/-- A write followed by a write. -/
theorem Safe.bind (hf : Appends f bs) (h : Safe log bs) (h' : Safe log' cs) :
    Safe (fun m => log m ++ (f m).elim [] log') (bs ++ cs) := by
  intro m hm hle a ha
  rw [List.length_append] at hle
  obtain ⟨m₁, hf₁, ha₁⟩ := hf m hm (by omega)
  have ha : a ∈ log m ++ (f m).elim [] log' := ha
  rw [hf₁, Option.elim_some] at ha
  rcases List.mem_append.mp ha with ha | ha
  · exact h m hm (by omega) a ha
  · exact h' m₁ ha₁.wf (by rw [ha₁.ind]; omega) a ha

/-- Room for `n` bytes is all that a copy needs. -/
theorem copyLog_inRange (h : m.WF) {n : Nat} (hroom : m.ind + n ≤ m.capa) :
    ∀ a ∈ m.copyLog n, a.InRange := by
  intro a ha
  have hlt := h.capa_lt
  rcases List.mem_append.mp ha with ha | ha
  · obtain ⟨i, hi, rfl⟩ := List.mem_map.mp ha
    have := List.mem_range.mp hi
    show m.ind + i < m.capa
    omega
  · cases List.mem_singleton.mp ha
    show m.ind + n < 2 ^ 31
    omega

/-- A growth to a capacity with room for `n` more bytes, and the copy. -/
theorem grow_copyLog_inRange (h : m.WF) {n capa : Nat} (hle : m.capa ≤ capa)
    (hroom : m.ind + n ≤ capa) (hlt : capa < 2 ^ 31) :
    ∀ a ∈ Access.int capa :: (m.grow capa).elim [] (copyLog n), a.InRange := by
  obtain ⟨m₁, hg, hm₁, hc, hi, -⟩ := grow_spec h capa hle hlt
  intro a ha
  rw [hg, Option.elim_some] at ha
  rcases List.mem_cons.mp ha with rfl | ha
  · exact hlt
  · exact copyLog_inRange hm₁ (by rw [hc, hi]; exact hroom) a ha

theorem safe_rawbytes (p : List UInt8) : Safe (fun m => m.rawbytesLog p.length) p := by
  intro m hm hle a ha
  have hind := hm.ind_le
  unfold rawbytesLog at ha
  rcases List.mem_cons.mp ha with rfl | ha
  · show m.ind + p.length < 2 ^ 31
    omega
  · split at ha
    · next hfull =>
        refine grow_copyLog_inRange hm ?_ (le_grown hm p.length) ?_ a ha
        · split <;> omega
        · split <;> omega
    · next hroom => exact copyLog_inRange hm (by omega) a ha

theorem pokeLog_eq_copyLog : pokeLog = copyLog 1 := rfl

theorem safe_rawbyte (x : UInt8) : Safe rawbyteLog [x] := by
  intro m hm hle a ha
  have hind := hm.ind_le
  have hge : 1024 ≤ m.capa := hm.capa_ge
  rw [List.length_singleton] at hle
  unfold rawbyteLog at ha
  rw [pokeLog_eq_copyLog] at ha
  split at ha
  · next hfull => exact grow_copyLog_inRange hm (by omega) (by omega) (by omega) a ha
  · next hroom => exact copyLog_inRange hm (by omega) a ha

theorem safe_putWord (w x : Nat) : Safe (fun m => m.putWordLog w x) (BigEndian.encode w x) := by
  induction w with
  | zero => exact safe_nil
  | succ w ih =>
      rw [BigEndian.encode_succ]
      exact Safe.bind (appends_rawbyte _) (safe_rawbyte _) ih

theorem safe_packAll (xs : List Int32) : Safe (fun m => m.packAllLog xs) (fieldBytes xs) := by
  induction xs with
  | nil => exact safe_nil
  | cons x xs ih => exact Safe.bind (appends_putWord 4 _) (safe_putWord 4 _) ih

/-- The fields of a header are stored in the buffer whatever its capacity. -/
theorem packHeaderLog_inRange (h : m.WF) (xs : List Int32)
    (hfit : rpcSzSize + 4 * xs.length ≤ rpcHeaderSz) : ∀ a ∈ m.packHeaderLog xs, a.InRange := by
  have hge : 1024 ≤ m.capa := h.capa_ge
  have hsz : rpcHeaderSz = 24 := rfl
  refine safe_packAll xs { m with ind := rpcSzSize } ?_ ?_
  · exact ⟨h.length_buf, show rpcSzSize ≤ m.capa by omega, h.capa_ge, h.capa_lt⟩
  · rw [length_fieldBytes]
    show rpcSzSize + 4 * xs.length ≤ 2 ^ 30
    omega

/-! ## One operation -/

theorem replyHeader_fits (h : ReplyHeader) : rpcSzSize + 4 * h.fields.length ≤ rpcHeaderSz :=
  show 4 + 4 * 2 ≤ 24 by decide

/-- A header does not reach the bytes behind `RPC_HEADER_SZ`. -/
theorem payload_overwrite {c : List UInt8} (xs : List Int32)
    (hfit : rpcSzSize + 4 * xs.length ≤ rpcHeaderSz) (hc : rpcHeaderSz ≤ c.length) :
    (MarshallOp.overwrite c xs).drop rpcHeaderSz = c.drop rpcHeaderSz := by
  have hlen : (c.take rpcSzSize ++ fieldBytes xs).length = rpcSzSize + 4 * xs.length := by
    rw [List.length_append, List.length_take, length_fieldBytes]
    omega
  unfold MarshallOp.overwrite
  rw [List.drop_append, List.drop_of_length_le (by rw [hlen]; exact hfit), List.nil_append,
    List.drop_drop, hlen]
  congr 1
  omega

/-- What was appended stays in place behind the header. -/
theorem payload_prefix_write {c : List UInt8} (op : MarshallOp) (hc : rpcHeaderSz ≤ c.length) :
    c.drop rpcHeaderSz <+: (op.write c).drop rpcHeaderSz := by
  cases op with
  | rawbyte x =>
      rw [MarshallOp.write, List.drop_append_of_le_length hc]
      exact List.prefix_append _ _
  | rawbytes p =>
      rw [MarshallOp.write, List.drop_append_of_le_length hc]
      exact List.prefix_append _ _
  | packReqHeader h => exact payload_overwrite h.fields le_rfl hc ▸ List.prefix_rfl
  | packReplyHeader h =>
      exact payload_overwrite h.fields (replyHeader_fits h) hc ▸ List.prefix_rfl

/-- The buffer of a `marshall`: the write position is behind the header. -/
structure Ready (m : Marshall) : Prop where
  wf : m.WF
  header_le : rpcHeaderSz ≤ m.ind

theorem ready_init (junk : Nat → UInt8) : (init junk).Ready := ⟨wf_init junk, le_rfl⟩

/-- What an operation leaves. -/
structure Done (m : Marshall) (op : MarshallOp) (m' : Marshall) : Prop where
  ready : m'.Ready
  ind : m'.ind = m.ind + op.size
  content : m'.content = op.write m.content

theorem done_of_appended (h : m.Ready) {op : MarshallOp} (ha : m.Appended bs m')
    (hsize : op.size = bs.length) (hwrite : op.write m.content = m.content ++ bs) :
    m.Done op m' where
  ready := ⟨ha.wf, by rw [ha.ind]; exact h.header_le.trans (Nat.le_add_right _ _)⟩
  ind := by rw [ha.ind, hsize]
  content := by rw [ha.content, hwrite]

theorem done_packHeader (h : m.Ready) {op : MarshallOp} (xs : List Int32)
    (hfit : rpcSzSize + 4 * xs.length ≤ rpcHeaderSz) (hsize : op.size = 0)
    (hwrite : op.write m.content = MarshallOp.overwrite m.content xs) :
    ∃ m', m.packHeader xs = some m' ∧ m.Done op m' := by
  obtain ⟨m', hp, hm', -, hi, hc⟩ := packHeader_spec h.wf hfit h.header_le
  refine ⟨m', hp, ⟨hm', by rw [hi]; exact h.header_le⟩, by rw [hi, hsize, Nat.add_zero], ?_⟩
  rw [hc, hwrite, MarshallOp.overwrite]

/-- Every operation that stays within 2^30 bytes returns. -/
theorem step_spec (h : m.Ready) (op : MarshallOp) (hle : m.ind + op.size ≤ 2 ^ 30) :
    ∃ m', m.step op = some m' ∧ m.Done op m' := by
  cases op with
  | rawbyte x =>
      obtain ⟨m', hs, ha⟩ := appends_rawbyte x m h.wf hle
      exact ⟨m', hs, done_of_appended h ha rfl rfl⟩
  | rawbytes p =>
      obtain ⟨m', hs, ha⟩ := appends_rawbytes p m h.wf hle
      exact ⟨m', hs, done_of_appended h ha rfl rfl⟩
  | packReqHeader hd => exact done_packHeader h hd.fields le_rfl rfl rfl
  | packReplyHeader hd =>
      exact done_packHeader h hd.fields (replyHeader_fits hd) rfl rfl

theorem accesses_inRange (h : m.Ready) (op : MarshallOp) (hle : m.ind + op.size ≤ 2 ^ 30) :
    ∀ a ∈ m.accesses op, a.InRange := by
  cases op with
  | rawbyte x => exact safe_rawbyte x m h.wf hle
  | rawbytes p => exact safe_rawbytes p m h.wf hle
  | packReqHeader hd => exact packHeaderLog_inRange h.wf hd.fields le_rfl
  | packReplyHeader hd => exact packHeaderLog_inRange h.wf hd.fields (replyHeader_fits hd)

/-! ## Any sequence of operations -/

/-- A state of the run: the buffer is well formed, and all accesses so far were in
range. -/
structure Sound (s : Marshall × List Access) : Prop where
  ready : s.1.Ready
  inRange : ∀ a ∈ s.2, a.InRange

theorem run_spec {junk : Nat → UInt8} (ops : List MarshallOp) {s : Marshall × List Access}
    (h : Sound s) (hle : s.1.ind + MarshallOp.total ops < 2 ^ 30) :
    ∃ t, (marshallMachine junk).run s ops = some t ∧ Sound t ∧
      t.1.ind = s.1.ind + MarshallOp.total ops ∧
      t.1.content = ops.foldl MarshallOp.write s.1.content ∧
      s.1.content.drop rpcHeaderSz <+: t.1.content.drop rpcHeaderSz := by
  induction ops generalizing s with
  | nil => exact ⟨s, rfl, h, rfl, rfl, List.prefix_rfl⟩
  | cons op ops ih =>
      rw [MarshallOp.total_cons] at hle
      obtain ⟨m', hs, hd⟩ := step_spec h.ready op (by omega)
      have hn : (marshallMachine junk).next s op = some (m', s.2 ++ s.1.accesses op) := by
        show (s.1.step op).map _ = _
        rw [hs, Option.map_some]
      have hsound : Sound (m', s.2 ++ s.1.accesses op) := by
        refine ⟨hd.ready, fun a ha => ?_⟩
        rcases List.mem_append.mp ha with ha | ha
        · exact h.inRange a ha
        · exact accesses_inRange h.ready op (by omega) a ha
      have hlen : rpcHeaderSz ≤ s.1.content.length := by
        rw [h.ready.wf.length_content]
        exact h.ready.header_le
      obtain ⟨t, hr, ht, hi, hc, hpre⟩ := ih hsound (by show m'.ind + _ < _; rw [hd.ind]; omega)
      refine ⟨t, (Machine.run_cons hn ops).trans hr, ht, ?_, ?_, ?_⟩
      · rw [hi, MarshallOp.total_cons, hd.ind, Nat.add_assoc]
      · rw [hc, List.foldl_cons, hd.content]
      · refine (payload_prefix_write op hlen).trans ?_
        rw [← hd.content]
        exact hpre

/-- After every sequence of operations that keeps the size below 2^30, and however
it goes on: all operations return, the write position is inside the buffer, every
store was inside it and every `int` below 2^31.  What has been written is what the
operations make of the header alone, so that no growth loses a byte of it, and the
bytes behind the header are only ever added to. -/
theorem marshall_room (junk : Nat → UInt8) (as bs : List MarshallOp)
    (hsize : rpcHeaderSz + MarshallOp.total (as ++ bs) < 2 ^ 30) :
    ∃ s t, (marshallMachine junk).run (.init junk, []) as = some s ∧
      (marshallMachine junk).run s bs = some t ∧
      s.1.ind = rpcHeaderSz + MarshallOp.total as ∧ s.1.ind ≤ s.1.capa ∧
      t.1.ind ≤ t.1.capa ∧ (∀ a ∈ t.2, a.InRange) ∧
      t.1.content = bs.foldl MarshallOp.write s.1.content ∧
      t.1.content = (as ++ bs).foldl MarshallOp.write (init junk).content ∧
      s.1.content.drop rpcHeaderSz <+: t.1.content.drop rpcHeaderSz := by
  have hinit : Sound (init junk, []) := ⟨ready_init junk, fun _ ha => absurd ha List.not_mem_nil⟩
  have hind : (init junk, ([] : List Access)).1.ind = rpcHeaderSz := rfl
  rw [MarshallOp.total_append] at hsize
  obtain ⟨s, hrs, hs, his, hcs, -⟩ := @run_spec junk as _ hinit (by omega)
  obtain ⟨t, hrt, ht, -, hct, hpre⟩ := @run_spec junk bs _ hs (by omega)
  refine ⟨s, t, hrs, hrt, his, hs.ready.wf.ind_le, ht.ready.wf.ind_le, ht.inRange, hct, ?_, hpre⟩
  rw [List.foldl_append, hct, hcs]

/-- A byte, a string that is longer than the buffer and a header over them. -/
def largeAppend : List MarshallOp :=
  [.rawbyte 7, .rawbytes (List.replicate 2000 1), .packReplyHeader ⟨3, 0⟩]

theorem total_largeAppend : MarshallOp.total largeAppend = 2001 := by
  unfold largeAppend
  rw [MarshallOp.total_cons, MarshallOp.total_cons, MarshallOp.size, MarshallOp.size,
    List.length_replicate]
  rfl

theorem marshall_room_largeAppend : ∃ s t,
    (marshallMachine fun _ => 0).run (.init fun _ => 0, []) largeAppend = some s ∧
      (marshallMachine fun _ => 0).run s [.rawbyte 9] = some t ∧ s.1.ind = 2025 ∧
      t.1.ind ≤ t.1.capa ∧ (∀ a ∈ t.2, a.InRange) ∧
      t.1.content = s.1.content ++ [9] := by
  obtain ⟨s, t, hs, ht, hi, -, hle, hrange, hcont, -⟩ :=
    marshall_room (fun _ => 0) largeAppend [.rawbyte 9]
      (by rw [MarshallOp.total_append, total_largeAppend]; decide)
  rw [total_largeAppend] at hi
  exact ⟨s, t, hs, ht, hi, hle, hrange, hcont⟩

end Marshall

end RpcLock
