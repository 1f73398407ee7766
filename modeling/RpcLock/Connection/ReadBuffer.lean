import RpcLock.Connection.Receive

/-!
# The receive buffer

`readpdu` compares the size of a PDU with `MAX_PDU` as a signed number and from
above only.  It then allocates `sz + 4` bytes, copies four of them, and reads
`sz - solong` bytes behind them, all in `size_t`.

`Tracked` is the reading half with what that arithmetic is about: `rpdu_` as it
stands, also when the process stops inside `readpdu`, the size of its
allocation, and the body reads issued so far.  The buffer stays well formed and
the body reads stay inside it exactly as long as no size below four is read.
-/

namespace RpcLock.Connection

/-! ## The buffer of a reading half -/

/-- A `read()` of a body, at the moment it is issued. -/
structure BodyRead where
  /-- The third argument, a `size_t`. -/
  count : Int
  /-- `rpdu_.sz - rpdu_.solong` -/
  left : Int
  /-- The bytes of the allocation behind `rpdu_.buf + rpdu_.solong`. -/
  room : Int
deriving DecidableEq, Repr

/-- The count is what is left, and it fits. -/
def BodyRead.Ok (r : BodyRead) : Prop := r.count = r.left ∧ 0 ≤ r.left ∧ r.left ≤ r.room

instance (r : BodyRead) : Decidable r.Ok := inferInstanceAs (Decidable (_ ∧ _))

/-- A buffer for a PDU of an allowed size, with its size field in it. -/
structure Charbuf.Sized (c : Charbuf) : Prop where
  buf : c.buf.isSome
  solong : 4 ≤ c.solong
  solong_le : c.solong ≤ c.sz
  sz_le : c.sz ≤ maxPdu

/-- `rpdu_` is empty, or a buffer with room for its PDU. -/
def Charbuf.WellFormed (c : Charbuf) (alloc : Nat) : Prop :=
  c = .empty ∨ c.Sized ∧ c.sz ≤ alloc

theorem Charbuf.WellFormed.sz_nonneg {c : Charbuf} {alloc : Nat} (h : c.WellFormed alloc) :
    0 ≤ c.sz := by
  rcases h with rfl | ⟨hs, -⟩
  · exact le_refl 0
  · have := hs.solong
    have := hs.solong_le
    omega

/-- The reading half, `rpdu_` as the last step left it, its allocation and the
body reads issued, the newest first. -/
structure Tracked where
  recv : Recv
  rpdu : Charbuf
  alloc : Nat
  reads : List BodyRead

namespace Recv

/-- The size field the step takes over into `rpdu_`: it is read as a whole and
not too big. -/
def takenSize (s : Recv) : RecvAct → Option (List UInt8)
  | .readCb (.got 4) _ _ =>
      if s.dead = false ∧ s.reads ∧ s.rpdu.sz = 0 ∧ 4 ≤ s.stream.length ∧
          ntohl (s.stream.take 4) ≤ maxPdu then
        some (s.stream.take 4)
      else none
  | _ => none

/-- The state in which the step issues its body read, if it does. -/
def atBodyRead (s : Recv) : RecvAct → Option Recv
  | .readCb header _ _ =>
      if s.dead = false ∧ s.reads then
        if s.rpdu.sz = 0 then
          (s.readHeader header).bind fun r => if r.2 then some r.1 else none
        else some s
      else none
  | .die => none

end Recv

/-- `rpdu_` and its allocation once the size field is taken over.  `malloc` fails
on a size that `size_t` makes huge. -/
def sized (header : List UInt8) : Charbuf × Nat :=
  let sz := ntohl header
  if sz + 4 < 0 then (⟨none, sz, 0⟩, 0) else (⟨some header, sz, 4⟩, (sz + 4).toNat)

theorem sized_sz (field : List UInt8) : (sized field).1.sz = ntohl field := by
  unfold sized
  dsimp only
  split <;> rfl

theorem sized_alloc {field : List UInt8} (h : 0 ≤ ntohl field + 4) :
    (sized field).2 = (ntohl field + 4).toNat := by
  unfold sized
  dsimp only
  rw [if_neg (not_lt.mpr h)]

namespace Tracked

def init (bytes : List UInt8) : Tracked := ⟨.init bytes, .empty, 0, []⟩

/-- The allocation behind `rpdu_.buf` after the size field was read. -/
def allocAfter (t : Tracked) (a : RecvAct) : Nat :=
  (t.recv.takenSize a).elim t.alloc fun header => (sized header).2

/-- `rpdu_` after the step.  A process that stopped leaves it as it was then. -/
def rpduAfter (t : Tracked) (a : RecvAct) (s' : Recv) : Charbuf :=
  if s'.fault.isSome then (t.recv.takenSize a).elim t.rpdu fun header => (sized header).1
  else s'.rpdu

/-- The body read of the step. -/
def readAfter (t : Tracked) (a : RecvAct) : List BodyRead :=
  (t.recv.atBodyRead a).elim [] fun s =>
    [⟨s.bodyCount, s.rpdu.sz - s.rpdu.solong, t.allocAfter a - s.rpdu.solong⟩]

def next (t : Tracked) (a : RecvAct) : Option Tracked :=
  (t.recv.next a).map fun s' =>
    ⟨s', t.rpduAfter a s', t.allocAfter a, t.readAfter a ++ t.reads⟩

/-- The buffer is well formed, and every body read was. -/
def Sound (t : Tracked) : Prop :=
  t.rpdu.WellFormed t.alloc ∧ ∀ r ∈ t.reads, r.Ok

/-- The step takes over no size below four. -/
def LengthOk (t : Tracked) (a : RecvAct) : Prop :=
  ∀ header ∈ t.recv.takenSize a, 4 ≤ ntohl header

instance (t : Tracked) (a : RecvAct) : Decidable (t.LengthOk a) :=
  inferInstanceAs (Decidable (∀ _ ∈ _, _))

end Tracked

/-- The reading half with its buffer, for a peer that sends these bytes. -/
def trackedMachine (bytes : List UInt8) : Machine Tracked RecvAct where
  init := .init bytes
  next := Tracked.next

/-! ## What the reads do to the buffer -/

namespace Recv

variable {s s' s₁ : Recv} {r header body : ReadResult} {accept ok : Bool}

theorem offer_rpdu (s : Recv) (accept : Bool) :
    (s.offer accept).rpdu = .empty ∨ (s.offer accept).rpdu = s.rpdu := by
  unfold offer
  cases s.rpdu.buf with
  | none => exact .inr rfl
  | some b =>
      dsimp only
      split
      · exact .inl rfl
      · exact .inr rfl

/-- A buffer with room stays one, or it is given up. -/
theorem readBody_sized (hs : s.rpdu.Sized) (h : s.readBody r = some (s₁, ok)) :
    s₁.fault = s.fault ∧
      (s₁.rpdu = .empty ∨ s₁.rpdu.Sized ∧ s₁.rpdu.sz = s.rpdu.sz) := by
  obtain ⟨hbuf, h4, hle, hmax⟩ := hs
  have hcount : s.bodyCount = s.rpdu.sz - s.rpdu.solong := if_pos hle
  cases r with
  | got n =>
      simp only [readBody] at h
      split at h
      · next hn =>
          rw [if_neg (by omega)] at h
          cases h
          refine ⟨rfl, .inr ⟨⟨?_, ?_, ?_, hmax⟩, rfl⟩⟩
          · simpa using hbuf
          · show 4 ≤ s.rpdu.solong + n
            omega
          · show s.rpdu.solong + n ≤ s.rpdu.sz
            omega
      · cases h
  | eof again | error again =>
      simp only [readBody] at h
      split at h
      · cases h
        exact ⟨rfl, .inr ⟨⟨hbuf, h4, hle, hmax⟩, rfl⟩⟩
      · cases h
        exact ⟨rfl, .inl rfl⟩

/-- `read_cb` after `readpdu` returned. -/
def finish (s : Recv) (ok accept : Bool) : Recv :=
  if s.fault.isSome then s
  else if ok then s.offer accept
  else { s with dead := true }.offer accept

theorem readCb_cases (h : s.readCb header body accept = some s') :
    s.dead = true ∧ s' = s ∨ s.dead = false ∧ ¬ s.reads ∧ s' = s.offer accept ∨
      s.dead = false ∧ s.reads ∧
        ∃ s₁ ok, s.readpdu header body = some (s₁, ok) ∧ s' = s₁.finish ok accept := by
  unfold readCb at h
  split at h
  · next hd =>
      cases h
      exact .inl ⟨hd, rfl⟩
  · next hd =>
      have hd : s.dead = false := by simpa using hd
      split at h
      · next hr =>
          obtain ⟨⟨s₁, ok⟩, hp, rfl⟩ := Option.map_eq_some_iff.mp h
          exact .inr (.inr ⟨hd, hr, s₁, ok, hp, rfl⟩)
      · next hr =>
          cases h
          exact .inr (.inl ⟨hd, hr, rfl⟩)

/-- What a size read does to an empty buffer: nothing, or it takes over a size,
and stops on a negative one. -/
theorem readHeader_cases (hr : s.rpdu = .empty) (h : s.readHeader r = some (s₁, ok)) :
    s₁.rpdu = .empty ∧ ok = false ∧
        ¬ (r = .got 4 ∧ 4 ≤ s.stream.length ∧ ntohl (s.stream.take 4) ≤ maxPdu) ∨
      r = .got 4 ∧ 4 ≤ s.stream.length ∧ ntohl (s.stream.take 4) ≤ maxPdu ∧
        (ntohl (s.stream.take 4) < 0 ∧ ok = false ∧ s₁.fault.isSome ∧ s₁.rpdu = .empty ∨
          0 ≤ ntohl (s.stream.take 4) ∧ ok = true ∧ s₁.fault = s.fault ∧
            s₁.rpdu = ⟨some (s.stream.take 4), ntohl (s.stream.take 4), 4⟩) := by
  cases r with
  | got n =>
      simp only [readHeader] at h
      split at h
      · next hn =>
          split at h
          · next h4 =>
              cases h
              exact .inl ⟨hr, rfl, fun hc => h4 (ReadResult.got.inj hc.1)⟩
          · next h4 =>
              obtain rfl : n = 4 := not_not.mp h4
              split at h
              · next hbig =>
                  cases h
                  exact .inl ⟨hr, rfl, fun hc => absurd hbig (not_lt_of_ge hc.2.2)⟩
              · next hbig =>
                  refine .inr ⟨rfl, hn.2.2, not_lt.mp hbig, ?_⟩
                  rw [if_neg (by simp [hr, Charbuf.empty])] at h
                  split at h
                  · next hneg =>
                      cases h
                      exact .inl ⟨by omega, rfl, rfl, hr⟩
                  · split at h
                    · next hneg =>
                        cases h
                        exact .inl ⟨hneg, rfl, rfl, hr⟩
                    · next hpos =>
                        cases h
                        exact .inr ⟨not_lt.mp hpos, rfl, rfl, rfl⟩
      · cases h
  | eof again =>
      cases h
      exact .inl ⟨hr, rfl, fun hc => nomatch hc.1⟩
  | error again =>
      simp only [readHeader] at h
      split at h
      · cases h
        exact .inl ⟨hr, rfl, fun hc => nomatch hc.1⟩
      · cases h
        exact .inl ⟨hr, rfl, fun hc => nomatch hc.1⟩

theorem finish_fault (s : Recv) (ok accept : Bool) : (s.finish ok accept).fault = s.fault := by
  unfold finish
  split
  · rfl
  · split
    · exact offer_fault s accept
    · exact offer_fault _ accept

/-- The end of `read_cb` keeps a buffer well formed. -/
theorem finish_wellFormed {alloc : Nat} (hw : s₁.rpdu.WellFormed alloc) (ok accept : Bool) :
    (s₁.finish ok accept).rpdu.WellFormed alloc := by
  have hoff : ∀ t : Recv, t.rpdu = s₁.rpdu → (t.offer accept).rpdu.WellFormed alloc := by
    intro t ht
    rcases offer_rpdu t accept with he | he
    · exact .inl he
    · rw [he, ht]
      exact hw
  unfold finish
  split
  · exact hw
  · split
    · exact hoff s₁ rfl
    · exact hoff _ rfl

/-- A body read into a buffer with room keeps it well formed. -/
theorem readBody_wellFormed {alloc : Nat} (hs : s.rpdu.Sized) (halloc : s.rpdu.sz ≤ alloc)
    (h : s.readBody r = some (s₁, ok)) : s₁.rpdu.WellFormed alloc := by
  obtain ⟨-, he | ⟨hs₁, hsz⟩⟩ := readBody_sized hs h
  · exact .inl he
  · exact .inr ⟨hs₁, hsz ▸ halloc⟩

/-- A body read at a buffer with room is as the source means it. -/
theorem bodyRead_ok {alloc : Nat} (hs : s.rpdu.Sized) (halloc : s.rpdu.sz ≤ alloc) :
    (⟨s.bodyCount, s.rpdu.sz - s.rpdu.solong, alloc - s.rpdu.solong⟩ : BodyRead).Ok := by
  refine ⟨if_pos hs.solong_le, ?_, ?_⟩
  · show 0 ≤ s.rpdu.sz - s.rpdu.solong
    have := hs.solong_le
    omega
  · show s.rpdu.sz - s.rpdu.solong ≤ alloc - s.rpdu.solong
    omega

end Recv

/-! ## One step -/

namespace Tracked

open Recv

variable {t t' : Tracked} {s' s₁ : Recv} {header body : ReadResult} {accept ok : Bool}
  {a : RecvAct}

theorem next_inv (h : t.next a = some t') : ∃ s', t.recv.fault = none ∧ t.recv.next a = some s' ∧
    t' = ⟨s', t.rpduAfter a s', t.allocAfter a, t.readAfter a ++ t.reads⟩ := by
  obtain ⟨s', hs', rfl⟩ := Option.map_eq_some_iff.mp h
  refine ⟨s', ?_, hs', rfl⟩
  unfold Recv.next at hs'
  split at hs'
  · cases hs'
  · next hf => simpa using hf

/-- As long as the process runs, `rpdu_` is that of the reading half. -/
theorem rpdu_next (h : t.next a = some t') (hf : t'.recv.fault = none) :
    t'.rpdu = t'.recv.rpdu := by
  obtain ⟨s', -, -, rfl⟩ := next_inv h
  have hf : s'.fault = none := hf
  show t.rpduAfter a s' = s'.rpdu
  unfold rpduAfter
  rw [hf]
  rfl

/-- A step without a size and without a body read, that leaves a well-formed
buffer. -/
theorem sound_quiet (hs : t.Sound) (htaken : t.recv.takenSize a = none)
    (hread : t.recv.atBodyRead a = none) (hw : s'.rpdu.WellFormed t.alloc) :
    Sound ⟨s', t.rpduAfter a s', t.allocAfter a, t.readAfter a ++ t.reads⟩ ↔ t.LengthOk a := by
  refine iff_of_true ⟨?_, ?_⟩ (by simp [LengthOk, htaken])
  · show (t.rpduAfter a s').WellFormed (t.allocAfter a)
    unfold rpduAfter allocAfter
    rw [htaken]
    split
    · exact hs.1
    · exact hw
  · show ∀ r ∈ t.readAfter a ++ t.reads, r.Ok
    unfold readAfter
    rw [hread]
    exact hs.2

/-- A step whose body read is issued at a buffer with room. -/
theorem sound_body (hs : t.Sound) (hread : t.recv.atBodyRead a = some s₁) (hsz : s₁.rpdu.Sized)
    (halloc : s₁.rpdu.sz ≤ t.allocAfter a) (hf : s'.fault = none)
    (hw : s'.rpdu.WellFormed (t.allocAfter a)) :
    Sound ⟨s', t.rpduAfter a s', t.allocAfter a, t.readAfter a ++ t.reads⟩ := by
  constructor
  · show (t.rpduAfter a s').WellFormed (t.allocAfter a)
    unfold rpduAfter
    rw [hf]
    exact hw
  · show ∀ r ∈ t.readAfter a ++ t.reads, r.Ok
    unfold readAfter
    rw [hread]
    intro r hr
    rcases List.mem_cons.mp hr with rfl | hr
    · exact bodyRead_ok hsz halloc
    · exact hs.2 r hr

/-- The process stops with a negative size in `rpdu_`. -/
theorem not_sound_of_stop {field : List UInt8} (htaken : t.recv.takenSize a = some field)
    (hneg : ntohl field < 0) (hf : s'.fault.isSome) :
    ¬ Sound ⟨s', t.rpduAfter a s', t.allocAfter a, t.readAfter a ++ t.reads⟩ := by
  rintro ⟨hw, -⟩
  have hw : (t.rpduAfter a s').WellFormed (t.allocAfter a) := hw
  unfold rpduAfter at hw
  rw [if_pos hf, htaken, Option.elim_some] at hw
  have := hw.sz_nonneg
  rw [sized_sz] at this
  omega

/-- A step that takes over a size and goes on to the body read. -/
theorem sound_taken {field : List UInt8} (hs : t.Sound) (htaken : t.recv.takenSize a = some field)
    (hread : t.recv.atBodyRead a = some s₁) (hrp : s₁.rpdu = ⟨some field, ntohl field, 4⟩)
    (hmax : ntohl field ≤ maxPdu)
    (hafter : s₁.rpdu.Sized → s₁.rpdu.sz ≤ t.allocAfter a →
      s'.fault = none ∧ s'.rpdu.WellFormed (t.allocAfter a)) :
    Sound ⟨s', t.rpduAfter a s', t.allocAfter a, t.readAfter a ++ t.reads⟩ ↔ t.LengthOk a := by
  have hlen : t.LengthOk a ↔ 4 ≤ ntohl field := by simp [LengthOk, htaken]
  rw [hlen]
  constructor
  · intro hs'
    -- what is left of the PDU is not negative
    have hok := hs'.2 ⟨s₁.bodyCount, s₁.rpdu.sz - s₁.rpdu.solong,
      t.allocAfter a - s₁.rpdu.solong⟩ (List.mem_append_left _ (by simp [readAfter, hread]))
    have hleft : (0 : Int) ≤ s₁.rpdu.sz - s₁.rpdu.solong := hok.2.1
    rw [hrp] at hleft
    have : (0 : Int) ≤ ntohl field - 4 := hleft
    omega
  · intro h4
    have hsized : s₁.rpdu.Sized := by
      rw [hrp]
      exact ⟨rfl, le_refl (4 : Int), h4, hmax⟩
    have hroom : s₁.rpdu.sz ≤ t.allocAfter a := by
      unfold allocAfter
      rw [htaken, Option.elim_some, sized_alloc (by omega), hrp]
      show ntohl field ≤ _
      omega
    obtain ⟨hf, hw⟩ := hafter hsized hroom
    exact sound_body hs hread hsized hroom hf hw

/-- A size is read into an empty buffer. -/
theorem sound_header (hs : t.Sound) (hfault : t.recv.fault = none) (hlive : t.recv.dead = false)
    (hreads : t.recv.reads) (hr : t.recv.rpdu = .empty)
    (hp : t.recv.readpdu header body = some (s₁, ok)) :
    Sound ⟨s₁.finish ok accept, t.rpduAfter (.readCb header body accept) (s₁.finish ok accept),
        t.allocAfter (.readCb header body accept),
        t.readAfter (.readCb header body accept) ++ t.reads⟩ ↔
      t.LengthOk (.readCb header body accept) := by
  have hsz : t.recv.rpdu.sz = 0 := by rw [hr]; rfl
  unfold readpdu at hp
  rw [if_pos hsz] at hp
  cases hh : t.recv.readHeader header with
  | none => simp [hh] at hp
  | some p =>
      obtain ⟨s₂, ok₂⟩ := p
      have hread : t.recv.atBodyRead (.readCb header body accept) =
          if ok₂ = true then some s₂ else none := by
        simp [atBodyRead, hlive, hreads, hsz, hh]
      rcases readHeader_cases hr hh with ⟨he, rfl, hnot⟩ | ⟨rfl, h4, hmax, hneg | hpos⟩
      · -- no size is taken over
        simp only [hh, Option.some.injEq, Prod.mk.injEq] at hp
        obtain ⟨rfl, rfl⟩ := hp
        refine sound_quiet hs ?_ (by simp [hread]) (finish_wellFormed (.inl he) _ _)
        unfold takenSize
        split
        · next heq =>
            cases heq
            exact if_neg fun hc => hnot ⟨rfl, hc.2.2.2⟩
        · rfl
      · -- a negative size: the process stops with it in `rpdu_`
        obtain ⟨hneg, rfl, hf, -⟩ := hneg
        simp only [hh, Option.some.injEq, Prod.mk.injEq] at hp
        obtain ⟨rfl, rfl⟩ := hp
        have htaken : t.recv.takenSize (.readCb (.got 4) body accept) =
            some (t.recv.stream.take 4) := if_pos ⟨hlive, hreads, hsz, h4, hmax⟩
        refine iff_of_false (not_sound_of_stop htaken hneg ((finish_fault _ _ _).symm ▸ hf))
          fun hok => ?_
        have := hok _ htaken
        omega
      · -- the body read follows
        obtain ⟨-, rfl, hf, hrp⟩ := hpos
        simp only [hh] at hp
        refine sound_taken hs (if_pos ⟨hlive, hreads, hsz, h4, hmax⟩) (by simp [hread]) hrp hmax
          fun hsized hroom =>
            ⟨?_, finish_wellFormed (readBody_wellFormed hsized hroom hp) _ _⟩
        rw [finish_fault, (readBody_sized hsized hp).1, hf, hfault]

/-- After a step of a sound reading half: sound again exactly if no size below
four was taken over. -/
theorem sound_next (hs : t.Sound) (hrpdu : t.recv.fault = none → t.rpdu = t.recv.rpdu)
    (hn : t.next a = some t') : t'.Sound ↔ t.LengthOk a := by
  obtain ⟨s', hfault, hs', rfl⟩ := next_inv hn
  have hrp := hrpdu hfault
  have hw : t.recv.rpdu.WellFormed t.alloc := hrp ▸ hs.1
  unfold Recv.next at hs'
  rw [hfault] at hs'
  cases a with
  | die =>
      cases hs'
      exact sound_quiet hs rfl rfl hw
  | readCb header body accept =>
      have hs' : t.recv.readCb header body accept = some s' := hs'
      have hquiet : t.recv.dead = true ∨ ¬ t.recv.reads →
          t.recv.takenSize (.readCb header body accept) = none ∧
            t.recv.atBodyRead (.readCb header body accept) = none := by
        intro hno
        have hnot : ¬ (t.recv.dead = false ∧ t.recv.reads) := by
          rintro ⟨hd, hr⟩
          rcases hno with hd' | hr'
          · rw [hd] at hd'
            cases hd'
          · exact hr' hr
        refine ⟨?_, if_neg hnot⟩
        unfold takenSize
        split
        · exact if_neg fun hc => hnot ⟨hc.1, hc.2.1⟩
        · rfl
      rcases readCb_cases hs' with ⟨hd, rfl⟩ | ⟨-, hr, rfl⟩ | ⟨hd, hr, s₁, ok, hp, rfl⟩
      · obtain ⟨htaken, hread⟩ := hquiet (.inl hd)
        exact sound_quiet hs htaken hread hw
      · obtain ⟨htaken, hread⟩ := hquiet (.inr hr)
        refine sound_quiet hs htaken hread ?_
        rcases offer_rpdu t.recv accept with he | he
        · exact .inl he
        · exact he ▸ hw
      · rcases hw with he | ⟨hsized, halloc⟩
        · exact sound_header hs hfault hd hr he hp
        · -- part way through a body
          have hsz : t.recv.rpdu.sz ≠ 0 := by
            have := hsized.solong
            have := hsized.solong_le
            omega
          have htaken : t.recv.takenSize (.readCb header body accept) = none := by
            unfold takenSize
            split
            · exact if_neg fun hc => hsz hc.2.2.1
            · rfl
          have hread : t.recv.atBodyRead (.readCb header body accept) = some t.recv := by
            simp [atBodyRead, hd, hr, hsz]
          have hal : t.allocAfter (.readCb header body accept) = t.alloc := by
            unfold allocAfter
            rw [htaken, Option.elim_none]
          rw [readpdu, if_neg hsz] at hp
          refine iff_of_true (sound_body hs hread hsized (hal.symm ▸ halloc) ?_
            (hal.symm ▸ finish_wellFormed (readBody_wellFormed hsized halloc hp) _ _)) ?_
          · rw [finish_fault, (readBody_sized hsized hp).1, hfault]
          · simp [LengthOk, htaken]

/-! ## Whole runs -/

theorem sound_init (bytes : List UInt8) : (init bytes).Sound :=
  ⟨.inl rfl, by simp [init]⟩

variable {bytes : List UInt8}

/-- For a peer that sends these bytes, however `read()` cuts them up: as long as
no size below four was taken over, the buffer is well formed and every body read
was issued inside it, and the next step breaks that exactly if it takes over a
size below four. -/
theorem receive_buffer_sound (h : (trackedMachine bytes).ReachedVia LengthOk t) :
    t.Sound ∧ ∀ a t', t.next a = some t' → (t'.Sound ↔ t.LengthOk a) := by
  have hinv : t.Sound ∧ (t.recv.fault = none → t.rpdu = t.recv.rpdu) := by
    refine h.invariant (P := fun t => t.Sound ∧ (t.recv.fault = none → t.rpdu = t.recv.rpdu))
      ⟨sound_init bytes, fun _ => rfl⟩ ?_
    intro t t' a ht hok hn
    exact ⟨(sound_next ht.1 ht.2 hn).mpr hok, rpdu_next hn⟩
  exact ⟨hinv.1, fun a t' hn => sound_next hinv.1 hinv.2 hn⟩

/-- A PDU of six bytes, whose body arrives one byte at a time. -/
theorem receive_buffer_sound_sixBytes :
    ∃ t, (trackedMachine [0, 0, 0, 6, 7, 8]).ReachedVia LengthOk t ∧
      t.reads = [⟨1, 1, 5⟩, ⟨2, 2, 6⟩] ∧ t.Sound := by
  obtain ⟨t, ht, hp⟩ := @Machine.exists_reachedVia_of_run _ _ (trackedMachine [0, 0, 0, 6, 7, 8])
    LengthOk _ (fun t => decide (t.reads = [⟨1, 1, 5⟩, ⟨2, 2, 6⟩]))
    [.readCb (.got 4) (.got 1) true, .readCb (.got 4) (.got 1) true] (by decide)
  exact ⟨t, ht, of_decide_eq_true hp, (receive_buffer_sound ht).1⟩

/-- A peer that sends the size 0: the body read asks for minus four bytes. -/
theorem reads_negative_count : ∃ t, (trackedMachine [0, 0, 0, 0]).Reachable t ∧
    t.reads = [⟨2 ^ 64 - 4, -4, 0⟩] ∧ ¬ t.Sound := by
  obtain ⟨t, ht, hp⟩ := Machine.exists_reachable_of_run (M := trackedMachine [0, 0, 0, 0])
    (p := fun t => decide (t.reads = [⟨2 ^ 64 - 4, -4, 0⟩]))
    [.readCb (.got 4) (.error false) true] (by decide)
  have hreads := of_decide_eq_true hp
  refine ⟨t, ht, hreads, fun hs => ?_⟩
  exact absurd (hs.2 ⟨2 ^ 64 - 4, -4, 0⟩ (by rw [hreads]; simp)) (by decide)

end Tracked

end RpcLock.Connection
