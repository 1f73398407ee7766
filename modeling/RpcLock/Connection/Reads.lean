import RpcLock.Connection.Receive

/-!
# Framed receive

A peer sends PDUs one after the other.  As long as no read has failed, the
reader is between two PDUs or part way through one, and what it has not read is
exactly the rest of the stream.  A read that fails kills the connection, so what
`got_pdu` accepted is a prefix of what was sent in any case.
-/

namespace RpcLock.Connection

theorem ntohl_framed (p : Pdu) : ntohl (p.framed.take 4) = p.size := by
  rw [ntohl, p.decode_framed, UInt32.toInt32_ofNat']
  exact Int32.toInt_ofNat_of_lt p.size_lt

theorem wire_eq_nil {ps : List Pdu} (h : wire ps = []) : ps = [] := by
  cases ps with
  | nil => rfl
  | cons p ps =>
      have hlen := congrArg List.length h
      have hgt := p.size_gt
      simp only [wire_cons, List.length_append, Pdu.length_framed, Pdu.size, List.length_nil] at hlen
      omega

namespace Recv

/-- No read of this step fails: a size is read as a whole, and a body read gets
something or `EAGAIN`. -/
def ReadsWell (s : Recv) : RecvAct → Prop
  | .readCb header body _ => s.reads → (s.rpdu.sz = 0 → header = .got 4) ∧ body.fails = false
  | .die => True

instance (s : Recv) (a : RecvAct) : Decidable (s.ReadsWell a) :=
  match a with
  | .readCb _ _ _ => inferInstanceAs (Decidable (_ → _))
  | .die => .isTrue trivial

/-- The reader after the PDUs `done`, before those in `rest`. -/
inductive Intact (pdus : List Pdu) (s : Recv) : Prop where
  | idle {done rest : List Pdu} : pdus = done ++ rest → s.accepted = done.map Pdu.framed →
      s.rpdu = .empty → s.stream = wire rest → Intact pdus s
  | body {done : List Pdu} {p : Pdu} {rest : List Pdu} {k : Nat} : pdus = done ++ p :: rest →
      s.accepted = done.map Pdu.framed → k ≤ p.size →
      s.rpdu = ⟨some (p.framed.take k), p.size, k⟩ →
      s.stream = p.framed.drop k ++ wire rest → Intact pdus s

/-- What is left when a read failed. -/
def Broken (pdus : List Pdu) (s : Recv) : Prop :=
  s.dead = true ∧ s.accepted <+: pdus.map Pdu.framed

variable {pdus : List Pdu} {s s' s₁ : Recv} {p : Pdu} {rest : List Pdu} {k : Nat} {ok : Bool}
  {r header body : ReadResult} {accept : Bool}

theorem intact_init : Intact pdus (init (wire pdus)) :=
  @Intact.idle pdus _ [] pdus rfl rfl rfl rfl

theorem Intact.accepted_prefix (h : Intact pdus s) : s.accepted <+: pdus.map Pdu.framed := by
  cases h with
  | idle hp ha _ _ | body hp ha _ _ _ =>
      rw [hp, ha, List.map_append]
      exact List.prefix_append _ _

/-- Reading a size takes the first four bytes of the next PDU, or it fails. -/
theorem readHeader_spec (hmax : ∀ p ∈ rest, p.size ≤ maxPdu) (hr : s.rpdu = .empty)
    (hs : s.stream = wire rest) (h : s.readHeader r = some (s₁, ok)) :
    (ok = true ∧ ∃ p rest', rest = p :: rest' ∧
      s₁ = { s with
        rpdu := ⟨some (p.framed.take 4), p.size, 4⟩
        stream := p.framed.drop 4 ++ wire rest' }) ∨
    (ok = false ∧ r ≠ .got 4 ∧ (s₁ = s.stop .verify ∨
      s₁.fault = s.fault ∧ s₁.rpdu = .empty ∧ s₁.accepted = s.accepted)) := by
  cases r with
  | got n =>
      simp only [readHeader] at h
      split at h
      · next hn =>
          by_cases h4 : n = 4
          · subst h4
            cases rest with
            | nil => simp [hs] at hn
            | cons p rest' =>
                have hlen : 4 ≤ p.framed.length := by
                  rw [Pdu.length_framed]
                  exact p.size_gt.le
                have htake : s.stream.take 4 = p.framed.take 4 := by
                  rw [hs, wire_cons, List.take_append_of_le_length hlen]
                have hdrop : s.stream.drop 4 = p.framed.drop 4 ++ wire rest' := by
                  rw [hs, wire_cons, List.drop_append_of_le_length hlen]
                have hle := hmax p List.mem_cons_self
                rw [htake, hdrop, ntohl_framed, hr] at h
                rw [if_neg (by simp), if_neg (by omega), if_neg (by simp [Charbuf.empty]),
                  if_neg (by omega), if_neg (by omega)] at h
                cases h
                exact .inl ⟨rfl, p, rest', rfl, rfl⟩
          · rw [if_pos h4] at h
            cases h
            exact .inr ⟨rfl, by simpa using h4, .inr ⟨rfl, hr, rfl⟩⟩
      · cases h
  | eof again =>
      cases h
      exact .inr ⟨rfl, by simp, .inr ⟨rfl, hr, rfl⟩⟩
  | error again =>
      simp only [readHeader] at h
      split at h
      · cases h
        exact .inr ⟨rfl, by simp, .inl rfl⟩
      · cases h
        exact .inr ⟨rfl, by simp, .inr ⟨rfl, hr, rfl⟩⟩

/-- Reading a body takes no byte of the next PDU, or it fails. -/
theorem readBody_spec (hk : k ≤ p.size) (hr : s.rpdu = ⟨some (p.framed.take k), p.size, k⟩)
    (hs : s.stream = p.framed.drop k ++ wire rest) (h : s.readBody r = some (s₁, ok)) :
    (ok = true ∧ ∃ k', k' ≤ p.size ∧ s₁ = { s with
      rpdu := ⟨some (p.framed.take k'), p.size, k'⟩
      stream := p.framed.drop k' ++ wire rest }) ∨
    (ok = false ∧ r.fails = true ∧ s₁ = { s with rpdu := .empty }) := by
  have hcount : s.bodyCount = (p.size - k : Nat) := by
    simp only [bodyCount, hr]
    rw [if_pos (by omega)]
    omega
  have hretry : ∀ again, r = .eof again ∨ r = .error again →
      (if again then some (s, true) else some ({ s with rpdu := .empty }, false)) =
        some (s₁, ok) →
      (ok = true ∧ ∃ k', k' ≤ p.size ∧ s₁ = { s with
        rpdu := ⟨some (p.framed.take k'), p.size, k'⟩
        stream := p.framed.drop k' ++ wire rest }) ∨
      (ok = false ∧ r.fails = true ∧ s₁ = { s with rpdu := .empty }) := by
    intro again hreq h
    cases again with
    | true =>
        cases h
        refine .inl ⟨rfl, k, hk, ?_⟩
        rw [← hr, ← hs]
    | false =>
        cases h
        refine .inr ⟨rfl, ?_, rfl⟩
        rcases hreq with rfl | rfl <;> rfl
  cases r with
  | got n =>
      simp only [readBody, hcount] at h
      split at h
      · next hn =>
          have hle : k + n ≤ p.size := by omega
          rw [hr] at h
          rw [if_neg (by simp only; omega)] at h
          cases h
          have hlen : n ≤ (p.framed.drop k).length := by
            rw [List.length_drop, Pdu.length_framed]
            omega
          refine .inl ⟨rfl, k + n, hle, ?_⟩
          rw [hs, List.take_append_of_le_length hlen, List.drop_append_of_le_length hlen,
            List.drop_drop, Option.map_some, ← List.take_add]
          simp
      · cases h
  | eof again => exact hretry again (.inl rfl) h
  | error again => exact hretry again (.inr rfl) h

/-- Only the buffer, the stream and the accepted PDUs matter. -/
theorem Intact.frame (h : Intact pdus s) (hr : s'.rpdu = s.rpdu) (hs : s'.stream = s.stream)
    (ha : s'.accepted = s.accepted) : Intact pdus s' := by
  cases h with
  | idle hp ha₀ hr₀ hs₀ => exact .idle hp (ha.trans ha₀) (hr.trans hr₀) (hs.trans hs₀)
  | body hp ha₀ hk hr₀ hs₀ => exact .body hp (ha.trans ha₀) hk (hr.trans hr₀) (hs.trans hs₀)

/-- A complete PDU that is accepted is the next one. -/
theorem Intact.offer (h : Intact pdus s) (accept : Bool) : Intact pdus (s.offer accept) := by
  cases h with
  | @idle done rest hp ha hr hs =>
      have he : s.offer accept = s := by simp [Recv.offer, hr, Charbuf.empty]
      rw [he]
      exact .idle hp ha hr hs
  | @body done p rest k hp ha hk hr hs =>
      by_cases hc : (p.size : Int) = k ∧ accept = true
      · have hks : k = p.size := by omega
        have hfull : p.framed.take k = p.framed := List.take_of_length_le (by simp [hks])
        have he : s.offer accept =
            { s with rpdu := .empty, accepted := s.accepted ++ [p.framed] } := by
          simp only [Recv.offer, hr, hc, and_self, if_true, hfull]
        rw [he]
        refine @Intact.idle _ _ (done ++ [p]) rest (by simp [hp]) ?_ rfl ?_
        · simp [ha]
        · rw [hs, hks, List.drop_of_length_le (by simp), List.nil_append]
      · have he : s.offer accept = s := by
          unfold Recv.offer
          simp only [hr]
          rw [if_neg hc]
        rw [he]
        exact .body hp ha hk hr hs

/-- What one `readpdu` does to an intact reader that reads. -/
theorem Intact.readpdu (hmax : ∀ p ∈ pdus, p.size ≤ maxPdu) (h : Intact pdus s)
    (hn : s.readpdu header body = some (s₁, ok)) :
    (ok = true ∧ s₁.fault = s.fault ∧ s₁.dead = s.dead ∧ Intact pdus s₁) ∨
    (ok = false ∧ ¬ ((s.rpdu.sz = 0 → header = .got 4) ∧ body.fails = false) ∧
      (s₁ = s.stop .verify ∨
        s₁.fault = s.fault ∧ s₁.rpdu = .empty ∧ s₁.accepted = s.accepted)) := by
  cases h with
  | @idle done rest hp ha hr hs =>
      have hrest : ∀ q ∈ rest, q.size ≤ maxPdu := fun q hq =>
        hmax q (by rw [hp]; exact List.mem_append_right _ hq)
      have hz : s.rpdu.sz = 0 := by rw [hr]; rfl
      unfold Recv.readpdu at hn
      rw [if_pos hz] at hn
      cases hh : s.readHeader header with
      | none => simp [hh] at hn
      | some res =>
          obtain ⟨s₂, ok₂⟩ := res
          rw [hh] at hn
          rcases readHeader_spec hrest hr hs hh with
            ⟨rfl, p, rest', rfl, rfl⟩ | ⟨rfl, hne, hs₂⟩
          · have hgt := p.size_gt
            rcases readBody_spec (s := { s with
                rpdu := ⟨some (p.framed.take 4), p.size, 4⟩
                stream := p.framed.drop 4 ++ wire rest' }) (k := 4) hgt.le rfl rfl hn with
              ⟨rfl, k', hk', rfl⟩ | ⟨rfl, hf, rfl⟩
            · exact .inl ⟨rfl, rfl, rfl, .body hp ha hk' rfl rfl⟩
            · refine .inr ⟨rfl, fun hc => ?_, .inr ⟨rfl, rfl, rfl⟩⟩
              rw [hf] at hc
              cases hc.2
          · cases hn
            exact .inr ⟨rfl, fun hc => hne (hc.1 hz), hs₂⟩
  | @body done p rest k hp ha hk hr hs =>
      have hz : ¬ s.rpdu.sz = 0 := by
        have hgt := p.size_gt
        rw [hr]
        simp only [Pdu.size]
        omega
      unfold Recv.readpdu at hn
      rw [if_neg hz] at hn
      rcases readBody_spec hk hr hs hn with ⟨rfl, k', hk', rfl⟩ | ⟨rfl, hf, rfl⟩
      · exact .inl ⟨rfl, rfl, rfl, .body hp ha hk' rfl rfl⟩
      · refine .inr ⟨rfl, fun hc => ?_, .inr ⟨rfl, rfl, rfl⟩⟩
        rw [hf] at hc
        cases hc.2

/-- A step leaves an intact reader intact, unless a read of it failed. -/
theorem Intact.next {a : RecvAct} (hmax : ∀ p ∈ pdus, p.size ≤ maxPdu) (h : Intact pdus s)
    (hn : s.next a = some s') :
    (Intact pdus s' ∧ (s.ReadsWell a → s'.fault = s.fault)) ∨
    (Broken pdus s' ∧ ¬ s.ReadsWell a) := by
  unfold Recv.next at hn
  split at hn
  · cases hn
  · next hnf =>
      have hnone : s.fault = none := by simpa using hnf
      cases a with
      | die =>
          cases hn
          exact .inl ⟨h.frame rfl rfl rfl, fun _ => rfl⟩
      | readCb header body accept =>
          simp only [readCb] at hn
          split at hn
          · cases hn
            exact .inl ⟨h, fun _ => rfl⟩
          · split at hn
            · next hreads =>
                obtain ⟨⟨s₁, ok⟩, hr, rfl⟩ := Option.map_eq_some_iff.mp hn
                rcases h.readpdu hmax hr with ⟨rfl, hf, -, hi⟩ | ⟨rfl, hfail, rfl | ⟨hf, hr₁, ha₁⟩⟩
                · rw [hnone] at hf
                  simp only [hf, Option.isSome_none, Bool.false_eq_true, if_false, if_true]
                  exact .inl ⟨hi.offer accept, fun _ => by rw [Recv.offer_fault, hf, hnone]⟩
                · refine .inl ⟨?_, fun hw => absurd (hw hreads) hfail⟩
                  simp only [stop, Option.isSome_some, if_true]
                  exact h.frame rfl rfl rfl
                · refine .inr ⟨?_, fun hw => hfail (hw hreads)⟩
                  rw [hnone] at hf
                  simp only [hf, Option.isSome_none, Bool.false_eq_true, if_false]
                  refine ⟨?_, ?_⟩
                  · simp [Recv.offer, hr₁, Charbuf.empty]
                  · simpa [Recv.offer, hr₁, Charbuf.empty, ha₁] using h.accepted_prefix
            · cases hn
              exact .inl ⟨h.offer accept, fun _ => s.offer_fault accept⟩

theorem Broken.next {a : RecvAct} (h : Broken pdus s) (hn : s.next a = some s') :
    Broken pdus s' := by
  obtain ⟨hd, ha⟩ := h
  unfold Recv.next at hn
  split at hn
  · cases hn
  · cases a with
    | die =>
        cases hn
        exact ⟨rfl, ha⟩
    | readCb header body accept =>
        simp only [readCb, hd, if_true] at hn
        cases hn
        exact ⟨hd, ha⟩

theorem intact_or_broken (hmax : ∀ p ∈ pdus, p.size ≤ maxPdu)
    (h : (recvMachine (wire pdus)).Reachable s) : Intact pdus s ∨ Broken pdus s := by
  refine h.invariant (P := fun s => Intact pdus s ∨ Broken pdus s) (.inl intact_init)
    fun s s' a hs hn => ?_
  rcases hs with hi | hb
  · exact (hi.next hmax hn).imp And.left And.left
  · exact .inr (hb.next hn)

theorem intact_of_readsWell (hmax : ∀ p ∈ pdus, p.size ≤ maxPdu)
    (h : (recvMachine (wire pdus)).ReachedVia ReadsWell s) : Intact pdus s ∧ s.fault = none := by
  refine h.invariant (P := fun s => Intact pdus s ∧ s.fault = none) ⟨intact_init, rfl⟩
    fun s s' a hs hw hn => ?_
  rcases hs.1.next hmax hn with ⟨hi, hf⟩ | ⟨-, hnw⟩
  · exact ⟨hi, (hf hw).trans hs.2⟩
  · exact absurd hw hnw

/-- When everything is read, the whole list is accepted or its last PDU waits to
be offered again. -/
theorem Intact.drained (h : Intact pdus s) (hs : s.stream = []) :
    (s.rpdu.buf = none ∧ s.accepted = pdus.map Pdu.framed) ∨
    (s.rpdu.buf ≠ none ∧ ¬ s.reads ∧ (s.offer true).accepted = pdus.map Pdu.framed) := by
  cases h with
  | @idle done rest hp ha hr hst =>
      have hrest := wire_eq_nil (hst.symm.trans hs)
      refine .inl ⟨by rw [hr]; rfl, ?_⟩
      rw [ha, hp, hrest, List.append_nil]
  | @body done p rest k hp ha hk hr hst =>
      obtain ⟨hdrop, hwire⟩ := List.append_eq_nil_iff.mp (hst.symm.trans hs)
      have hrest := wire_eq_nil hwire
      have hks : k = p.size := by
        have hlen := List.drop_eq_nil_iff.mp hdrop
        rw [Pdu.length_framed] at hlen
        omega
      subst hks
      have hfull : p.framed.take p.size = p.framed := List.take_of_length_le (by simp)
      refine .inr ⟨by rw [hr]; simp, by simp [Recv.reads, hr], ?_⟩
      simp only [Recv.offer, hr, and_self, if_true, hfull]
      rw [ha, hp, hrest]
      simp

/-- Whatever the reads return and `got_pdu` answers, what it accepted is a prefix
of what was sent.  If no read fails, then once everything is read the whole list
is accepted, at the latest with the next offer that is. -/
theorem receive_faithful (hmax : ∀ p ∈ pdus, p.size ≤ maxPdu) :
    (∀ s, (recvMachine (wire pdus)).Reachable s → s.accepted <+: pdus.map Pdu.framed) ∧
    ∀ s, (recvMachine (wire pdus)).ReachedVia ReadsWell s → s.stream = [] →
      (s.rpdu.buf = none → s.accepted = pdus.map Pdu.framed) ∧
      (s.rpdu.buf ≠ none → s.dead = false → ∀ header body, ∃ s',
        s.next (.readCb header body true) = some s' ∧ s'.accepted = pdus.map Pdu.framed) := by
  refine ⟨fun s h => ?_, fun s h hs => ?_⟩
  · rcases intact_or_broken hmax h with hi | ⟨-, hb⟩
    · exact hi.accepted_prefix
    · exact hb
  · obtain ⟨hi, hf⟩ := intact_of_readsWell hmax h
    rcases hi.drained hs with ⟨hnone, hall⟩ | ⟨hsome, hnr, hall⟩
    · exact ⟨fun _ => hall, fun hne => absurd hnone hne⟩
    · refine ⟨fun hnone => absurd hnone hsome, fun _ hd header body => ⟨s.offer true, ?_, hall⟩⟩
      simp [Recv.next, hf, readCb, hd, hnr]

/-- Two PDUs, read in pieces, with a refusal in between. -/
theorem receive_faithful_twoPdus : ∃ s,
    (recvMachine (wire [bytePdu 7, bytePdu 8])).ReachedVia ReadsWell s ∧ s.stream = [] ∧
    s.accepted = [(bytePdu 7).framed, (bytePdu 8).framed] := by
  obtain ⟨s, hs, hp⟩ := @Machine.exists_reachedVia_of_run _ _
    (recvMachine (wire [bytePdu 7, bytePdu 8])) ReadsWell _
    (fun s => decide (s.stream = [] ∧ s.rpdu.buf = none))
    [.readCb (.got 4) (.error true) true, .readCb (.got 4) (.got 1) false,
      .readCb (.got 4) (.got 1) true, .readCb (.got 4) (.got 1) true] (by decide)
  obtain ⟨hnil, hnone⟩ := of_decide_eq_true hp
  exact ⟨s, hs, hnil, ((receive_faithful (by decide)).2 s hs hnil).1 hnone⟩

end Recv

end RpcLock.Connection
