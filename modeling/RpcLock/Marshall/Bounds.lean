import RpcLock.Marshall.Types
import RpcLock.Connection.Pdu

/-!
# The bytes that decoding copies

Two functions of `unmarshall` copy bytes out of the buffer, `rawbyte` and
`rawbytes`.  `trace` lists the calls an extraction makes, each with the object
it is made on, and `Linked` says that the trace is the run of the extraction.

`rawbyte` compares its cursor with the size.  `rawbytes` compares the sum of its
cursor and the length, which is an `unsigned int` and wraps: a length prefix
near 2^32 is accepted.  A decoded message stays inside its buffer exactly when
no string wraps.
-/

namespace RpcLock.Unmarshall

/-! ## Calls -/

/-- A call of a function that copies out of the buffer. -/
inductive Call where
  | rawbyte
  /-- With what the target held before. -/
  | rawbytes (ss : StdString) (n : UInt32)
deriving DecidableEq, Repr

namespace Call

/-- The object after the call. -/
def effect (c : Call) (u : Unmarshall) : Unmarshall :=
  match c with
  | .rawbyte => u.rawbyte.2
  | .rawbytes ss n => (u.rawbytes ss n).2

/-- The call copies the byte at index `i`. -/
def Copies (c : Call) (u : Unmarshall) (i : Nat) : Prop :=
  match c with
  | .rawbyte => u.ind < u.sz ∧ i = u.ind
  | .rawbytes _ n => (u.ind + n.toNat) % 2 ^ 32 ≤ u.sz ∧ u.ind ≤ i ∧ i < u.ind + n.toNat

/-- `rawbytes` accepts a length only if that many bytes are left, and otherwise
sets `_ok` to false and changes nothing else. -/
def Contract (c : Call) (u : Unmarshall) : Prop :=
  match c with
  | .rawbyte => True
  | .rawbytes ss n =>
      (n.toNat : Int) ≤ u.sz - u.ind ∨ u.rawbytes ss n = (ss, { u with ok := false })

/-- `_ind+n` does not wrap. -/
def NoWrap (c : Call) (u : Unmarshall) : Prop :=
  match c with
  | .rawbyte => True
  | .rawbytes _ n => u.ind + n.toNat < 2 ^ 32

instance (c : Call) (u : Unmarshall) : Decidable (c.NoWrap u) := by
  cases c <;> unfold NoWrap <;> infer_instance

end Call

/-! ## Traces -/

/-- A call and the object it is made on. -/
abbrev Trace : Type := List (Unmarshall × Call)

/-- `rawbyte`, `w` times. -/
def traceBytes : Nat → Unmarshall → Trace
  | 0, _ => []
  | w + 1, u => (u, .rawbyte) :: traceBytes w u.rawbyte.2

/-- The calls of `n` extractions in a row. -/
def traceElems (next : Unmarshall → Unmarshall) (trace : Unmarshall → Trace) :
    Nat → Unmarshall → Trace
  | 0, _ => []
  | n + 1, u => trace u ++ traceElems next trace n (next u)

/-- The calls of `operator>>`. -/
def traceInto : (t : Ty) → t.den → Unmarshall → Trace
  | .bool => fun _ => traceBytes 1
  | .char => fun _ => traceBytes 1
  | .uchar => fun _ => traceBytes 1
  | .short => fun _ => traceBytes 2
  | .ushort => fun _ => traceBytes 2
  | .int => fun _ => traceBytes 4
  | .uint => fun _ => traceBytes 4
  | .ulonglong => fun _ u => traceBytes 4 u ++ traceBytes 4 u.getUInt.2
  | .string => fun s u =>
      traceBytes 4 u ++ if u.getUInt.2.ok then [(u.getUInt.2, .rawbytes s u.getUInt.1)] else []
  | .vector t => fun _ u => traceBytes 4 u ++
      traceElems (fun u => (getInto t t.fresh u).2) (traceInto t t.fresh) u.getUInt.1.toNat
        u.getUInt.2
  | .map a b => fun _ u => traceBytes 4 u ++
      traceElems (fun u => (getInto b b.fresh (getInto a a.fresh u).2).2)
        (fun u => traceInto a a.fresh u ++ traceInto b b.fresh (getInto a a.fresh u).2)
        u.getUInt.1.toNat u.getUInt.2

/-- The calls of `u >> x₁ >> x₂ ...`. -/
def traceAll : List Ty → Unmarshall → Trace
  | [], _ => []
  | t :: ts, u => traceInto t t.fresh u ++ traceAll ts (get t u).2

/-- The calls lead from `u` to `v`, each made on what the one before it left. -/
inductive Linked : Unmarshall → Trace → Unmarshall → Prop where
  | nil (u : Unmarshall) : Linked u [] u
  | cons {u v : Unmarshall} {c : Call} {tr : Trace} :
      Linked (c.effect u) tr v → Linked u ((u, c) :: tr) v

variable {u v w : Unmarshall} {tr tr' : Trace}

theorem Linked.append (h : Linked u tr v) (h' : Linked v tr' w) : Linked u (tr ++ tr') w := by
  induction h with
  | nil => exact h'
  | cons _ ih => exact .cons (ih h')

theorem linked_bytes (n : Nat) (u : Unmarshall) : Linked u (traceBytes n u) (u.getWord n).2 := by
  induction n generalizing u with
  | zero => exact .nil u
  | succ n ih => exact .cons (ih u.rawbyte.2)

theorem linked_elems {α : Type} {get : Unmarshall → α × Unmarshall} {trace : Unmarshall → Trace}
    (h : ∀ u, Linked u (trace u) (get u).2) (n : Nat) (xs : List α) (u : Unmarshall) :
    Linked u (traceElems (fun u => (get u).2) trace n u) (getElems get n xs u).2 := by
  induction n generalizing xs u with
  | zero => exact .nil u
  | succ n ih => exact (h u).append (ih _ _)

theorem linked_entries {κ ν : Type} [LinearOrder κ] {getKey : Unmarshall → κ × Unmarshall}
    {getVal : Unmarshall → ν × Unmarshall} {trace : Unmarshall → Trace}
    (h : ∀ u, Linked u (trace u) (getVal (getKey u).2).2) (n : Nat) (d : SortedMap κ ν)
    (u : Unmarshall) :
    Linked u (traceElems (fun u => (getVal (getKey u).2).2) trace n u)
      (getEntries getKey getVal n d u).2 := by
  induction n generalizing d u with
  | zero => exact .nil u
  | succ n ih => exact (h u).append (ih _ _)

theorem linked_getUInt (u : Unmarshall) : Linked u (traceBytes 4 u) u.getUInt.2 :=
  linked_bytes 4 u

theorem getULongLong_snd (u : Unmarshall) : u.getULongLong.2 = u.getUInt.2.getUInt.2 := by
  unfold getULongLong
  with_reducible rfl

theorem getString_eq (s : StdString) (u : Unmarshall) : u.getString s =
    if u.getUInt.2.ok then u.getUInt.2.rawbytes s u.getUInt.1 else (s, u.getUInt.2) := by
  unfold getString
  with_reducible rfl

theorem linked_getULongLong (u : Unmarshall) :
    Linked u (traceBytes 4 u ++ traceBytes 4 u.getUInt.2) u.getULongLong.2 := by
  rw [getULongLong_snd]
  exact (linked_getUInt u).append (linked_getUInt u.getUInt.2)

theorem linked_getString (s : StdString) (u : Unmarshall) :
    Linked u (traceInto .string s u) (u.getString s).2 := by
  rw [getString_eq]
  refine (linked_getUInt u).append ?_
  split
  · exact .cons (.nil _)
  · exact .nil _

theorem linked_getVector {α : Type} {get : Unmarshall → α × Unmarshall}
    {trace : Unmarshall → Trace} (h : ∀ u, Linked u (trace u) (get u).2) (v : List α)
    (u : Unmarshall) :
    Linked u (traceBytes 4 u ++ traceElems (fun u => (get u).2) trace u.getUInt.1.toNat u.getUInt.2)
      (u.getVector get v).2 :=
  (linked_getUInt u).append (linked_elems h _ _ _)

theorem linked_getMap {κ ν : Type} [LinearOrder κ] {getKey : Unmarshall → κ × Unmarshall}
    {getVal : Unmarshall → ν × Unmarshall} {trace : Unmarshall → Trace}
    (h : ∀ u, Linked u (trace u) (getVal (getKey u).2).2) (u : Unmarshall) :
    Linked u (traceBytes 4 u ++
        traceElems (fun u => (getVal (getKey u).2).2) trace u.getUInt.1.toNat u.getUInt.2)
      (u.getMap getKey getVal).2 :=
  (linked_getUInt u).append (linked_entries h _ _ _)

/-- The trace of an extraction is its run. -/
theorem linked_into (t : Ty) (x : t.den) (u : Unmarshall) :
    Linked u (traceInto t x u) (getInto t x u).2 := by
  induction t generalizing u with
  | bool => exact linked_bytes 1 u
  | char => exact linked_bytes 1 u
  | uchar => exact linked_bytes 1 u
  | short => exact linked_bytes 2 u
  | ushort => exact linked_bytes 2 u
  | int => exact linked_bytes 4 u
  | uint => exact linked_bytes 4 u
  | ulonglong => exact linked_getULongLong u
  | string => exact linked_getString x u
  | vector t ih => exact linked_getVector (ih t.fresh) x u
  | map a b iha ihb =>
      exact linked_getMap (fun u => (iha a.fresh u).append (ihb b.fresh _)) u

/-- Every extraction starts with a byte. -/
theorem traceInto_head (t : Ty) (x : t.den) (u : Unmarshall) :
    ∃ tr, traceInto t x u = (u, .rawbyte) :: tr := by
  cases t <;> exact ⟨_, rfl⟩

theorem linked_all (ts : List Ty) (u : Unmarshall) : Linked u (traceAll ts u) (getAll ts u).2 := by
  induction ts generalizing u with
  | nil => exact .nil u
  | cons t ts ih => exact (linked_into t t.fresh u).append (ih _)

/-! ## What the calls keep -/

theorem rawbyte_sz (u : Unmarshall) : u.rawbyte.2.sz = u.sz := by
  unfold rawbyte
  split <;> rfl

theorem rawbytes_sz (u : Unmarshall) (ss : StdString) (n : UInt32) :
    (u.rawbytes ss n).2.sz = u.sz := by
  unfold rawbytes
  dsimp only
  split <;> rfl

/-- The size of the buffer is fixed. -/
theorem effect_sz (c : Call) (u : Unmarshall) : (c.effect u).sz = u.sz := by
  cases c with
  | rawbyte => exact rawbyte_sz u
  | rawbytes ss n => exact rawbytes_sz u ss n

theorem Linked.sz (h : Linked u tr v) : ∀ p ∈ tr, p.1.sz = u.sz := by
  induction h with
  | nil => simp
  | @cons u v c tr _ ih =>
      intro p hp
      rcases List.mem_cons.mp hp with rfl | hp
      · rfl
      · rw [ih p hp, effect_sz]

theorem Linked.end_sz (h : Linked u tr v) : v.sz = u.sz := by
  induction h with
  | nil => rfl
  | cons _ ih => rw [ih, effect_sz]

/-- The flag is sticky. -/
theorem ok_of_effect {c : Call} (h : (c.effect u).ok = true) : u.ok = true := by
  cases c with
  | rawbyte =>
      simp only [Call.effect, rawbyte] at h
      split at h
      · cases h
      · exact h
  | rawbytes ss n =>
      simp only [Call.effect, rawbytes] at h
      split at h
      · cases h
      · exact h

theorem Linked.ok (h : Linked u tr v) (hv : v.ok = true) : u.ok = true := by
  induction h with
  | nil => exact hv
  | cons _ ih => exact ok_of_effect (ih hv)

theorem rawbytes_of_lt {ss : StdString} {n : UInt32} (h : u.sz < (u.ind + n.toNat) % 2 ^ 32) :
    u.rawbytes ss n = (ss, { u with ok := false }) := by
  unfold rawbytes
  exact if_pos h

theorem rawbytes_ind_of_le (ss : StdString) {n : UInt32}
    (h : (u.ind + n.toNat) % 2 ^ 32 ≤ u.sz) :
    (u.rawbytes ss n).2.ind = (u.ind + n.toNat) % 2 ^ 32 := by
  unfold rawbytes
  dsimp only
  rw [if_neg (Nat.not_lt.mpr h)]

/-- A copy that succeeds without wrapping lies inside the buffer. -/
theorem le_of_rawbytes {ss : StdString} {n : UInt32} (h : (u.rawbytes ss n).2.ok = true)
    (hw : u.ind + n.toNat < 2 ^ 32) : u.ind + n.toNat ≤ u.sz := by
  by_contra hlt
  rw [rawbytes_of_lt (by rw [Nat.mod_eq_of_lt hw]; omega)] at h
  cases h

/-- A call that succeeds without wrapping moves the cursor forward, inside the
buffer. -/
theorem effect_ind {c : Call} (h : (c.effect u).ok = true) (hw : c.NoWrap u) :
    u.ind ≤ (c.effect u).ind ∧ (c.effect u).ind ≤ u.sz ∧
      (c = .rawbyte → (c.effect u).ind = u.ind + 1) := by
  cases c with
  | rawbyte =>
      simp only [Call.effect, rawbyte] at h ⊢
      split at h
      · cases h
      · rename_i hlt
        rw [if_neg hlt]
        dsimp only
        omega
  | rawbytes ss n =>
      have hle := le_of_rawbytes h hw
      have hw' : u.ind + n.toNat < 2 ^ 32 := hw
      have hind : (u.rawbytes ss n).2.ind = (u.ind + n.toNat) % 2 ^ 32 :=
        rawbytes_ind_of_le ss (by rwa [Nat.mod_eq_of_lt hw'])
      rw [Nat.mod_eq_of_lt hw'] at hind
      show u.ind ≤ (u.rawbytes ss n).2.ind ∧ (u.rawbytes ss n).2.ind ≤ u.sz ∧ _
      exact ⟨by omega, by omega, fun hc => by cases hc⟩

/-- So does a run of calls. -/
theorem Linked.ind (h : Linked u tr v) (hv : v.ok = true) (hw : ∀ p ∈ tr, p.2.NoWrap p.1) :
    u.ind ≤ v.ind ∧ (tr = [] ∨ v.ind ≤ u.sz) := by
  induction h with
  | nil => exact ⟨le_rfl, .inl rfl⟩
  | @cons u v c tr hl ih =>
      obtain ⟨hle, hin, -⟩ := effect_ind (hl.ok hv) (hw (u, c) List.mem_cons_self)
      obtain ⟨hle', hend⟩ := ih hv fun p hp => hw p (List.mem_cons_of_mem _ hp)
      refine ⟨hle.trans hle', .inr ?_⟩
      rcases hend with rfl | hend
      · cases hl
        exact hin
      · rwa [effect_sz] at hend

theorem Linked.ind_lt (h : Linked u tr v) (hv : v.ok = true) (hw : ∀ p ∈ tr, p.2.NoWrap p.1)
    (htr : tr = (u, .rawbyte) :: tr') : u.ind < v.ind ∧ v.ind ≤ u.sz := by
  subst htr
  obtain ⟨-, hin⟩ := h.ind hv hw
  cases h with
  | cons hl =>
      have hstep := (effect_ind (hl.ok hv) (hw (u, .rawbyte) List.mem_cons_self)).2.2 rfl
      have hle := (hl.ind hv fun p hp => hw p (List.mem_cons_of_mem _ hp)).1
      exact ⟨by omega, hin.resolve_left (List.cons_ne_nil _ _)⟩

/-- A failed read is not repaired. -/
theorem ok_of_getWord {n : Nat} (h : (u.getWord n).2.ok = true) : u.ok = true := by
  induction n generalizing u with
  | zero => exact h
  | succ n ih =>
      have hok : u.rawbyte.2.ok = true := ih h
      unfold rawbyte at hok
      split at hok
      · cases hok
      · exact hok

/-- A word that was read lies inside the buffer. -/
theorem ind_of_getWord {n : Nat} (h : (u.getWord n).2.ok = true) :
    (u.getWord n).2.ind = u.ind + n ∧ (n = 0 ∨ u.ind + n ≤ u.sz) := by
  induction n generalizing u with
  | zero => exact ⟨rfl, .inl rfl⟩
  | succ n ih =>
      obtain ⟨hind, hle⟩ := ih (u := u.rawbyte.2) h
      have hok : u.rawbyte.2.ok = true := ok_of_getWord h
      unfold rawbyte at hok hind hle
      split at hok
      · cases hok
      · next hlt =>
          simp only [hlt, if_false] at hind hle
          refine ⟨?_, .inr (by omega)⟩
          show (u.rawbyte.2.getWord n).2.ind = u.ind + (n + 1)
          unfold rawbyte
          rw [if_neg hlt, hind]
          omega

/-- A word that is all there is read. -/
theorem getWord_snd {w : Nat} (h : u.ind + w ≤ u.sz) :
    (u.getWord w).2 = { u with ind := u.ind + w } := by
  induction w generalizing u with
  | zero => rfl
  | succ w ih =>
      have hb : u.rawbyte.2 = { u with ind := u.ind + 1 } := by
        unfold rawbyte
        rw [if_neg (by omega)]
      have hstep : (u.getWord (w + 1)).2 = (u.rawbyte.2.getWord w).2 := rfl
      rw [hstep, hb, ih (by dsimp only; omega)]
      simp only [Nat.add_assoc, Nat.add_comm 1 w]

theorem ok_of_getUInt (h : u.getUInt.2.ok = true) : u.ok = true := ok_of_getWord (n := 4) h

theorem ind_of_getUInt (h : u.getUInt.2.ok = true) :
    u.getUInt.2.ind = u.ind + 4 ∧ u.ind + 4 ≤ u.sz := by
  obtain ⟨hind, hle⟩ := @ind_of_getWord u 4 h
  exact ⟨hind, hle.resolve_left (by decide)⟩

theorem getUInt_snd (h : u.ind + 4 ≤ u.sz) : u.getUInt.2 = { u with ind := u.ind + 4 } :=
  getWord_snd h

/-- `rawbytes` is only called with the cursor inside the buffer. -/
def Aligned (tr : Trace) : Prop :=
  ∀ p ∈ tr, ∀ ss n, p.2 = .rawbytes ss n → p.1.ind ≤ p.1.sz

theorem aligned_append (h : Aligned tr) (h' : Aligned tr') : Aligned (tr ++ tr') := fun p hp =>
  (List.mem_append.mp hp).elim (h p) (h' p)

theorem aligned_bytes (n : Nat) (u : Unmarshall) : Aligned (traceBytes n u) := by
  induction n generalizing u with
  | zero => simp [Aligned, traceBytes]
  | succ n ih =>
      intro p hp ss k hc
      rcases List.mem_cons.mp hp with rfl | hp
      · cases hc
      · exact ih _ p hp ss k hc

theorem aligned_elems {next : Unmarshall → Unmarshall} {trace : Unmarshall → Trace}
    (h : ∀ u, Aligned (trace u)) (n : Nat) (u : Unmarshall) :
    Aligned (traceElems next trace n u) := by
  induction n generalizing u with
  | zero => simp [Aligned, traceElems]
  | succ n ih => exact aligned_append (h u) (ih _)

/-- The length prefix was read, so the cursor behind it is inside. -/
theorem aligned_string (s : StdString) (u : Unmarshall) : Aligned (traceInto .string s u) := by
  refine aligned_append (aligned_bytes 4 u) fun p hp ss n _ => ?_
  split at hp
  · next hok =>
      rw [List.mem_singleton] at hp
      subst hp
      obtain ⟨hind, hle⟩ := ind_of_getUInt hok
      have hsz := (linked_getUInt u).end_sz
      show u.getUInt.2.ind ≤ u.getUInt.2.sz
      omega
  · cases hp

theorem aligned_into (t : Ty) (x : t.den) (u : Unmarshall) : Aligned (traceInto t x u) := by
  induction t generalizing u with
  | bool => exact aligned_bytes 1 u
  | char => exact aligned_bytes 1 u
  | uchar => exact aligned_bytes 1 u
  | short => exact aligned_bytes 2 u
  | ushort => exact aligned_bytes 2 u
  | int => exact aligned_bytes 4 u
  | uint => exact aligned_bytes 4 u
  | ulonglong => exact aligned_append (aligned_bytes 4 u) (aligned_bytes 4 _)
  | string => exact aligned_string x u
  | vector t ih => exact aligned_append (aligned_bytes 4 u) (aligned_elems (ih t.fresh) _ _)
  | map a b iha ihb =>
      exact aligned_append (aligned_bytes 4 u)
        (aligned_elems (fun u => aligned_append (iha a.fresh u) (ihb b.fresh _)) _ _)

theorem aligned_all (ts : List Ty) (u : Unmarshall) : Aligned (traceAll ts u) := by
  induction ts generalizing u with
  | nil => simp [Aligned, traceAll]
  | cons t ts ih => exact aligned_append (aligned_into t t.fresh u) (ih _)

/-! ## Which calls are right -/

/-- Wherever the cursor is, also behind the end of the buffer: the test of
`rawbytes` is right unless the sum wraps to something that is not larger than
the size. -/
theorem contract_iff (hsz : u.sz < 2 ^ 31) (ss : StdString) (n : UInt32) :
    (Call.rawbytes ss n).Contract u ↔
      ¬ (2 ^ 32 ≤ u.ind + n.toNat ∧ (u.ind + n.toNat) % 2 ^ 32 ≤ u.sz) := by
  have hn := n.toNat_lt
  unfold Call.Contract
  constructor
  · rintro (hle | hrej) ⟨hwrap, hmod⟩
    · omega
    · -- the accepted call moves the cursor back
      have hacc := rawbytes_ind_of_le ss hmod
      rw [hrej] at hacc
      simp only at hacc
      omega
  · intro hno
    by_cases hmod : (u.ind + n.toNat) % 2 ^ 32 ≤ u.sz
    · refine .inl ?_
      have hlt : u.ind + n.toNat < 2 ^ 32 := by
        by_contra hge
        exact hno ⟨Nat.not_lt.mp hge, hmod⟩
      rw [Nat.mod_eq_of_lt hlt] at hmod
      omega
    · exact .inr (rawbytes_of_lt (Nat.not_le.mp hmod))

/-- With the cursor inside the buffer a call is right exactly if it does not
wrap. -/
theorem call_iff {c : Call} (hsz : u.sz < 2 ^ 31)
    (hin : ∀ ss n, c = .rawbytes ss n → u.ind ≤ u.sz) :
    ((∀ i, c.Copies u i → i < u.sz) ∧ c.Contract u) ↔ c.NoWrap u := by
  cases c with
  | rawbyte =>
      refine iff_of_true ⟨?_, trivial⟩ trivial
      rintro i ⟨hlt, rfl⟩
      exact hlt
  | rawbytes ss n =>
      have hle := hin ss n rfl
      have hn := n.toNat_lt
      rw [contract_iff hsz]
      unfold Call.NoWrap Call.Copies
      constructor
      · rintro ⟨-, hno⟩
        by_contra hge
        exact hno ⟨Nat.not_lt.mp hge, by omega⟩
      · intro hlt
        refine ⟨?_, by omega⟩
        rintro i ⟨hmod, -, hi⟩
        rw [Nat.mod_eq_of_lt hlt] at hmod
        omega

/-! ## Decoding -/

/-- The objects decoding starts from: a buffer with its header unpacked, or taken
in from another object. -/
def Started (b : List UInt8) (u : Unmarshall) : Prop :=
  u = (ofBuffer b b.length).unpackReqHeader.2 ∨ u = (ofBuffer b b.length).unpackReplyHeader.2 ∨
    ∃ v another : Unmarshall, another.buf = b ∧ another.sz = b.length ∧ u = (v.takeIn another).1

theorem unpack_sz (u : Unmarshall) : u.unpack.2.sz = u.sz := (linked_bytes 4 u).end_sz

theorem unpackReqHeader_sz (u : Unmarshall) : u.unpackReqHeader.2.sz = u.sz := by
  unfold unpackReqHeader unpackReqFields
  simp only [unpack_sz]

theorem unpackReplyHeader_sz (u : Unmarshall) : u.unpackReplyHeader.2.sz = u.sz := by
  unfold unpackReplyHeader unpackReplyFields
  simp only [unpack_sz]

theorem takeIn_sz (u another : Unmarshall) : (u.takeIn another).1.sz = another.sz := by
  unfold takeIn
  with_reducible rfl

theorem ofBuffer_sz (b : List UInt8) (sz : Nat) : (ofBuffer b sz).sz = sz := by
  unfold ofBuffer
  with_reducible rfl

theorem Started.sz {b : List UInt8} (h : Started b u) : u.sz = b.length := by
  unfold Started at h
  obtain h | h | ⟨v, another, -, hsz, h⟩ := h
  · rw [h, unpackReqHeader_sz, ofBuffer_sz]
  · rw [h, unpackReplyHeader_sz, ofBuffer_sz]
  · rw [h, takeIn_sz, hsz]

/-- No byte outside the buffer is copied and `rawbytes` keeps its contract, in
every sequence of extractions, exactly when no string among them wraps. -/
theorem decode_in_bounds {b : List UInt8} (hb : b.length ≤ Connection.maxPdu)
    (hu : Started b u) (ts : List Ty) :
    ((∀ p ∈ traceAll ts u, (∀ i, p.2.Copies p.1 i → i < b.length) ∧ p.2.Contract p.1) ↔
      ∀ p ∈ traceAll ts u, p.2.NoWrap p.1) ∧
    ∀ v : Unmarshall, v.sz ≤ Connection.maxPdu → ∀ ss n,
      (Call.rawbytes ss n).Contract v ↔
        ¬ (2 ^ 32 ≤ v.ind + n.toNat ∧ (v.ind + n.toNat) % 2 ^ 32 ≤ v.sz) := by
  have hmax : Connection.maxPdu < 2 ^ 31 := by decide
  refine ⟨forall₂_congr fun p hp => ?_, fun v hsz => contract_iff (by omega)⟩
  have hsz : p.1.sz = b.length := ((linked_all ts u).sz p hp).trans hu.sz
  rw [← hsz]
  exact call_iff (by omega) (aligned_all ts u p hp)

/-- A request with an `int` and the string "ab" behind the header. -/
def twoArgs : List UInt8 :=
  List.replicate 24 0 ++ [0, 0, 0, 7, 0, 0, 0, 2, 97, 98]

theorem decode_in_bounds_twoArgs : twoArgs.length ≤ Connection.maxPdu ∧
    ∀ p ∈ traceAll [.int, .string] (ofBuffer twoArgs twoArgs.length).unpackReqHeader.2,
      (∀ i, p.2.Copies p.1 i → i < twoArgs.length) ∧ p.2.Contract p.1 := by
  refine ⟨by decide, (decode_in_bounds (by decide) (.inl rfl) _).1.mpr ?_⟩
  decide

/-- A request whose only argument is a string with the length prefix 2^32 - 28.
The cursor behind the prefix is 28. -/
def hugeString : List UInt8 := List.replicate 24 0 ++ [255, 255, 255, 228]

/-- The length is accepted, and the copy runs out of the buffer. -/
theorem decode_out_of_bounds : hugeString.length ≤ Connection.maxPdu ∧
    ∃ u, Started hugeString u ∧ ∃ p ∈ traceAll [.string] u, ∃ i,
      p.2.Copies p.1 i ∧ hugeString.length ≤ i := by
  refine ⟨by decide, _, .inl rfl, (⟨hugeString, 28, 28, true, false⟩, .rawbytes [] 4294967268),
    by decide, 28, ?_, by decide⟩
  exact ⟨by decide, by decide, by decide⟩

end RpcLock.Unmarshall
