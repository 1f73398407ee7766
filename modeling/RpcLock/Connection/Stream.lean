import RpcLock.Connection.Reads
import RpcLock.Connection.Writes
import RpcLock.Marshall.RoundTrip
import Mathlib.Data.List.Forall2

/-!
# The two ends of a connection

A TCP connection joins two `connection` objects.  Each has its writing and its
reading half, under one `m_` and with one `dead_`.  The bytes that the socket of one
end accepted reach the other end in order; how many of them a `read` gets, and when,
is open, and so is whether a read fails.

The reader sees a stream that grows while it reads.  What it has not read and what
the writer has not written yet are together the rest of the PDUs that are in the
writer's hands, so the reader is in a state of `Reads` for that list.
-/

namespace RpcLock.Connection

/-! ## The model -/

inductive Side where
  | client
  | server
deriving DecidableEq, Repr

def Side.peer : Side → Side
  | .client => .server
  | .server => .client

/-- A `connection`. -/
structure Endpoint where
  w : Conn
  r : Recv

inductive EndAct where
  /-- A critical section of the writing half. -/
  | write (a : ConnAct)
  /-- `read_cb`, with the thread its signal wakes when the read fails. -/
  | read (header body : ReadResult) (accept : Bool) (w : Option Nat)
deriving DecidableEq, Repr

namespace Endpoint

def init : Endpoint := ⟨.init, .init []⟩

/-- The process of this end has failed a `VERIFY`. -/
def stopped (x : Endpoint) : Bool := x.w.aborted || x.r.fault.isSome

/-- One critical section. -/
def next (x : Endpoint) : EndAct → Option Endpoint
  | .write a =>
      match a with
      -- a read fails in `read`
      | .readFail _ => none
      | a =>
          if x.stopped then none
          else (x.w.next a).map fun w => ⟨w, { x.r with dead := w.dead }⟩
  | .read header body accept w =>
      if x.stopped then none
      else (x.r.next (.readCb header body accept)).bind fun r =>
        if r.dead = x.w.dead then some ⟨x.w, r⟩
        else (x.w.next (.readFail w)).map fun w' => ⟨w', r⟩

/-- Bytes arrive. -/
def arrive (x : Endpoint) (bytes : List UInt8) : Endpoint :=
  { x with r := { x.r with stream := x.r.stream ++ bytes } }

end Endpoint

/-- A TCP connection. -/
abbrev Link : Type := Side → Endpoint

namespace Link

/-- One step of one end.  What it writes is on its way to the other end. -/
def next (s : Link) (p : Side × EndAct) : Option Link :=
  ((s p.1).next p.2).map fun x side =>
    if side = p.1 then x else (s side).arrive (x.w.out.drop (s p.1).w.out.length)

end Link

/-- A TCP connection between two processes. -/
def linkMachine : Machine Link (Side × EndAct) where
  init _ := .init
  next := Link.next

/-! ## The writing half -/

namespace Conn

variable {s s' : Conn} {a : ConnAct} {t : Nat} {p : Pdu} {r : WriteResult}

theorem out_of_writepdu {ok : Bool} (h : s.writepdu r = some (s', ok)) : s.out <+: s'.out := by
  unfold Conn.writepdu at h
  dsimp only at h
  split at h
  · cases h
    exact List.prefix_rfl
  · cases r with
    | wrote n =>
        simp only at h
        split at h
        · cases h
          exact List.prefix_append _ _
        · cases h
    | again | error =>
        cases h
        exact List.prefix_rfl

/-- How a step makes the stream grow: with bytes, and with a PDU that is put behind
complete ones. -/
structure Grows (s s' : Conn) : Prop where
  out : s.out <+: s'.out
  installed : s'.installed = s.installed ∨
    s.out = wire (s.installed.map Prod.snd) ∧ ∃ e, s'.installed = s.installed ++ [e]

theorem Grows.of_eq (ho : s'.out = s.out) (hi : s'.installed = s.installed) : s.Grows s' :=
  ⟨ho ▸ List.prefix_rfl, .inl hi⟩

/-- Only the socket and the list of senders matter. -/
theorem Grows.congr {s₀ : Conn} (h : s₀.Grows s') (ho : s₀.out = s.out)
    (hi : s₀.installed = s.installed) : s.Grows s' :=
  ⟨ho ▸ h.out, by rw [← ho, ← hi]; exact h.installed⟩

@[simp] theorem waitComplete_out : (s.waitComplete t p).out = s.out := by
  unfold Conn.waitComplete
  split <;> rfl

@[simp] theorem waitComplete_installed : (s.waitComplete t p).installed = s.installed := by
  unfold Conn.waitComplete
  split <;> rfl

theorem grows_of_install (h : s.install t p r = some s')
    (hout : s.out = wire (s.installed.map Prod.snd)) : s.Grows s' := by
  have key : ∀ {s₁ : Conn} {ok : Bool}, (s.taken t p).writepdu r = some (s₁, ok) →
      s.out <+: s₁.out ∧ s₁.installed = s.installed ++ [(t, p)] := by
    intro s₁ ok hw
    refine ⟨out_of_writepdu (s := s.taken t p) hw, ?_⟩
    obtain ⟨b, o, rfl, -⟩ := writepdu_frame hw
    rfl
  cases install_inv h with
  | failed hw => exact ⟨(key hw).1, .inr ⟨hout, _, (key hw).2⟩⟩
  | complete hw _ => exact ⟨(key hw).1, .inr ⟨hout, _, (key hw).2⟩⟩
  | rest hw =>
      refine ⟨by rw [waitComplete_out]; exact (key hw).1, .inr ⟨hout, (t, p), ?_⟩⟩
      rw [waitComplete_installed]
      exact (key hw).2

theorem grows_of_waitSlot (hw : s.Writes) (h : s.waitSlot t p r = some s') : s.Grows s' := by
  cases waitSlot_inv h with
  | park | refuse => exact .of_eq rfl rfl
  | take hd hbuf hn =>
      -- the slot of a live connection is free only behind complete PDUs
      cases hw.slot with
      | free _ _ hall _ =>
          exact (grows_of_install (s := { s with waiters := s.waiters - 1 }) hn (hall hd)).congr
            rfl rfl
      | writing _ hp _ =>
          obtain ⟨b, hb, -⟩ := hp.buf
          cases hbuf.symm.trans hb
      | givenUp _ _ _ _ hdead => cases hd.symm.trans hdead

theorem grows_of_step (hw : s.Writes) (h : s.step a = some s') : s.Grows s' := by
  cases step_inv h with
  | send _ hn =>
      have hs : Writes { s with waiters := s.waiters + 1 } := hw.frame id rfl rfl rfl rfl
      exact (grows_of_waitSlot hs hn).congr rfl rfl
  | @resumeSlot t pdu r c s' _ _ hn =>
      have hs : Writes { s with sendWait := c } := hw.frame id rfl rfl rfl rfl
      exact (grows_of_waitSlot hs hn).congr rfl rfl
  | resumeComplete => exact .of_eq waitComplete_out waitComplete_installed
  | writeCb hn =>
      cases writeCb_inv hn with
      | abort | idle => exact .of_eq rfl rfl
      | failed _ _ hwr _ | rest _ _ hwr _ | complete _ _ hwr _ =>
          have ho := out_of_writepdu hwr
          obtain ⟨b, o, rfl, -⟩ := writepdu_frame hwr
          exact ⟨ho, .inl rfl⟩
  | _ => exact .of_eq rfl rfl

/-- What holds of the PDUs that are handed to `send` holds of all PDUs. -/
structure AllPdus (P : Pdu → Prop) (s : Conn) : Prop where
  senders : ∀ t x, s.senders t = some x → P x.pdu
  installed : ∀ e ∈ s.installed, P e.2

theorem allPdus_init (P : Pdu → Prop) : AllPdus P init where
  senders := by simp [init]
  installed := by simp [init]

variable {P : Pdu → Prop}

theorem AllPdus.congr (h : AllPdus P s) (hs : s'.senders = s.senders)
    (hi : s'.installed = s.installed) : AllPdus P s' :=
  ⟨by rw [hs]; exact h.senders, by rw [hi]; exact h.installed⟩

theorem AllPdus.setSender {x : Sender} (h : AllPdus P s) (hx : P x.pdu) :
    AllPdus P (s.setSender t x) := by
  refine ⟨fun u y hu => ?_, h.installed⟩
  rcases setSender_senders_cases hu with ⟨-, rfl⟩ | ⟨-, hu⟩
  · exact hx
  · exact h.senders u y hu

theorem AllPdus.waitComplete (h : AllPdus P s) (hp : P p) : AllPdus P (s.waitComplete t p) := by
  unfold Conn.waitComplete
  split
  · exact AllPdus.setSender (h.congr rfl rfl) hp
  · exact AllPdus.setSender (h.congr rfl rfl) hp

theorem AllPdus.waitSlot (h : AllPdus P s) (hp : P p) (hn : s.waitSlot t p r = some s') :
    AllPdus P s' := by
  cases waitSlot_inv hn with
  | park => exact AllPdus.setSender (h.congr rfl rfl) hp
  | refuse => exact AllPdus.setSender (h.congr rfl rfl) hp
  | take _ _ hn =>
      have key : ∀ {s₁ : Conn} {ok : Bool},
          ({ s with waiters := s.waiters - 1 }.taken t p).writepdu r = some (s₁, ok) →
          AllPdus P s₁ := by
        intro s₁ ok hw
        obtain ⟨b, o, rfl, -⟩ := writepdu_frame hw
        refine ⟨h.senders, fun e he => ?_⟩
        rcases List.mem_append.mp he with he | he
        · exact h.installed e he
        · rw [List.mem_singleton.mp he]
          exact hp
      cases install_inv hn with
      | failed hw => exact AllPdus.setSender ((key hw).congr rfl rfl) hp
      | complete hw _ => exact AllPdus.setSender ((key hw).congr rfl rfl) hp
      | rest hw => exact AllPdus.waitComplete ((key hw).congr rfl rfl) hp

theorem AllPdus.step (h : AllPdus P s) (hsend : ∀ t p r, a = .send t p r → P p)
    (hn : s.step a = some s') : AllPdus P s' := by
  cases step_inv hn with
  | send _ hn =>
      exact AllPdus.waitSlot (s := { s with waiters := s.waiters + 1 }) (h.congr rfl rfl)
        (hsend _ _ _ rfl) hn
  | @resumeSlot t pdu r c s' ht _ hn =>
      exact AllPdus.waitSlot (s := { s with sendWait := c }) (h.congr rfl rfl) (h.senders t _ ht) hn
  | resumeComplete ht _ => exact AllPdus.waitComplete (h.congr rfl rfl) (h.senders _ _ ht)
  | @unwatch t pdu ht =>
      have hp : P pdu := h.senders t _ ht
      exact AllPdus.setSender (h.congr rfl rfl) hp
  | @removed t pdu ht =>
      have hp : P pdu := h.senders t _ ht
      exact AllPdus.setSender (h.congr rfl rfl) hp
  | writeCb hn =>
      cases writeCb_inv hn with
      | abort | idle => exact h.congr rfl rfl
      | failed _ _ hwr _ | rest _ _ hwr _ | complete _ _ hwr _ =>
          obtain ⟨b, o, rfl, -⟩ := writepdu_frame hwr
          exact h.congr rfl rfl
  | _ => exact h.congr rfl rfl

theorem AtomicBytes.prefix_wire (h : s.AtomicBytes) :
    s.out <+: wire (s.installed.map Prod.snd) := by
  obtain ⟨done, part, ho, ⟨hi, rfl⟩ | ⟨e, hi, hpre, -⟩⟩ := h
  · have he : s.out = wire (s.installed.map Prod.snd) := by rw [ho, hi, List.append_nil]
    exact he ▸ List.prefix_rfl
  · rw [ho, hi, List.map_append, wire_append]
    refine (List.prefix_append_right_inj _).mpr ?_
    simpa using hpre

end Conn

/-! ## The reading half -/

namespace Recv

/-- The reader with these bytes behind what has arrived. -/
def ahead (s : Recv) (rest : List UInt8) : Recv := { s with stream := s.stream ++ rest }

variable {s s' s₁ : Recv} {ok : Bool} {r header body : ReadResult} {accept : Bool}

theorem readHeader_ahead (rest : List UInt8) (h : s.readHeader r = some (s₁, ok)) :
    (s.ahead rest).readHeader r = some (s₁.ahead rest, ok) := by
  cases r with
  | got n =>
      simp only [readHeader] at h ⊢
      split at h
      · next hn =>
          have hlen : n ≤ (s.ahead rest).stream.length := by
            rw [ahead, List.length_append]
            omega
          rw [if_pos ⟨hn.1, hn.2.1, hlen⟩]
          simp only [ahead, List.take_append_of_le_length hn.2.2,
            List.drop_append_of_le_length hn.2.2]
          split_ifs at h ⊢ <;> cases h <;> rfl
      · cases h
  | eof again =>
      cases h
      rfl
  | error again =>
      simp only [readHeader] at h ⊢
      split_ifs at h ⊢ <;> cases h <;> rfl

theorem readBody_ahead (rest : List UInt8) (h : s.readBody r = some (s₁, ok)) :
    (s.ahead rest).readBody r = some (s₁.ahead rest, ok) := by
  cases r with
  | got n =>
      simp only [readBody] at h ⊢
      split at h
      · next hn =>
          have hlen : n ≤ (s.ahead rest).stream.length := by
            rw [ahead, List.length_append]
            omega
          rw [if_pos ⟨hn.1, hn.2.1, hlen⟩]
          simp only [ahead, List.take_append_of_le_length hn.2.2,
            List.drop_append_of_le_length hn.2.2]
          split_ifs at h ⊢ <;> cases h <;> rfl
      · cases h
  | eof again | error again =>
      simp only [readBody] at h ⊢
      split_ifs at h ⊢ <;> cases h <;> rfl

theorem readpdu_ahead (rest : List UInt8) (h : s.readpdu header body = some (s₁, ok)) :
    (s.ahead rest).readpdu header body = some (s₁.ahead rest, ok) := by
  unfold Recv.readpdu at h ⊢
  split at h
  · next hz =>
      rw [if_pos (show (s.ahead rest).rpdu.sz = 0 from hz)]
      cases hh : s.readHeader header with
      | none => simp [hh] at h
      | some res =>
          obtain ⟨s₂, ok₂⟩ := res
          rw [hh] at h
          rw [readHeader_ahead rest hh]
          cases ok₂ with
          | true => exact readBody_ahead rest h
          | false =>
              cases h
              rfl
  · next hz =>
      rw [if_neg (show ¬ (s.ahead rest).rpdu.sz = 0 from hz)]
      exact readBody_ahead rest h

theorem offer_ahead (rest : List UInt8) :
    (s.ahead rest).offer accept = (s.offer accept).ahead rest := by
  unfold Recv.offer
  simp only [ahead]
  cases s.rpdu.buf with
  | none => rfl
  | some b =>
      by_cases hc : s.rpdu.sz = s.rpdu.solong ∧ accept = true
      · simp only [if_pos hc]
        exact if_pos hc
      · simp only [if_neg hc]
        exact if_neg hc

/-- What a reader does, it does whatever follows. -/
theorem next_ahead {a : RecvAct} (rest : List UInt8) (h : s.next a = some s') :
    (s.ahead rest).next a = some (s'.ahead rest) := by
  unfold Recv.next at h ⊢
  split at h
  · cases h
  · next hf =>
      rw [if_neg (show ¬ (s.ahead rest).fault.isSome = true from hf)]
      cases a with
      | die =>
          cases h
          rfl
      | readCb header body accept =>
          simp only [readCb] at h ⊢
          split at h
          · next hd =>
              cases h
              rw [if_pos (show (s.ahead rest).dead = true from hd)]
          · next hd =>
              rw [if_neg (show ¬ (s.ahead rest).dead = true from hd)]
              split at h
              · next hr =>
                  rw [if_pos (show (s.ahead rest).reads from hr)]
                  obtain ⟨⟨s₁, ok⟩, hn, rfl⟩ := Option.map_eq_some_iff.mp h
                  rw [readpdu_ahead rest hn]
                  show some (if s₁.fault.isSome then s₁.ahead rest
                    else if ok then (s₁.ahead rest).offer accept
                    else (({ s₁ with dead := true } : Recv).ahead rest).offer accept) = _
                  rw [offer_ahead, offer_ahead]
                  split_ifs <;> rfl
              · next hr =>
                  rw [if_neg (show ¬ (s.ahead rest).reads from hr)]
                  cases h
                  rw [offer_ahead]

/-- A dead connection reads nothing. -/
theorem next_of_dead (hd : s.dead = true) (h : s.next (.readCb header body accept) = some s') :
    s.fault = none ∧ s' = s := by
  unfold Recv.next at h
  split at h
  · cases h
  · next hf =>
      simp only [readCb, hd, if_true] at h
      exact ⟨by simpa using hf, (Option.some.inj h).symm⟩

/-- More PDUs may follow. -/
theorem Intact.append {pdus : List Pdu} (h : Intact pdus s) (p : Pdu) :
    Intact (pdus ++ [p]) (s.ahead p.framed) := by
  cases h with
  | @idle done rest hp ha hr hs =>
      refine @Intact.idle _ _ done (rest ++ [p]) (by rw [hp, List.append_assoc]) ha hr ?_
      simp [ahead, hs]
  | @body done q rest k hp ha hk hr hs =>
      refine @Intact.body _ _ done q (rest ++ [p]) k (by simp [hp]) ha hk hr ?_
      simp [ahead, hs]

/-- A `read_cb` that leaves the reader no longer intact has killed the connection and
accepts nothing.  Nothing is written past the end of the buffer. -/
theorem Intact.read {pdus : List Pdu} (hmax : ∀ p ∈ pdus, p.size ≤ maxPdu) (h : Intact pdus s)
    (hn : s.next (.readCb header body accept) = some s') :
    (Intact pdus s' ∧ (s'.fault = none ∨ s'.fault = some .verify)) ∨
    (s'.dead = true ∧ s'.accepted = s.accepted ∧ s'.fault = none) := by
  unfold Recv.next at hn
  split at hn
  · cases hn
  next hnf =>
  have hnone : s.fault = none := by simpa using hnf
  simp only [readCb] at hn
  split at hn
  · cases hn
    exact .inl ⟨h, .inl hnone⟩
  split at hn
  · obtain ⟨⟨s₁, ok⟩, hr, rfl⟩ := Option.map_eq_some_iff.mp hn
    rcases h.readpdu hmax hr with ⟨rfl, hf, -, hi⟩ | ⟨rfl, -, rfl | ⟨hf, hr₁, ha₁⟩⟩
    · rw [hnone] at hf
      simp only [hf, Option.isSome_none, Bool.false_eq_true, if_false, if_true]
      exact .inl ⟨hi.offer accept, .inl ((s₁.offer_fault accept).trans hf)⟩
    · simp only [stop, Option.isSome_some, if_true]
      exact .inl ⟨h.frame rfl rfl rfl, .inr trivial⟩
    · rw [hnone] at hf
      simp only [hf, Option.isSome_none, Bool.false_eq_true, if_false]
      refine .inr ⟨?_, ?_, ?_⟩
      · simp [Recv.offer, hr₁, Charbuf.empty]
      · simp [Recv.offer, hr₁, Charbuf.empty, ha₁]
      · simp [Recv.offer, hr₁, Charbuf.empty]
  · cases hn
    exact .inl ⟨h.offer accept, .inl ((s.offer_fault accept).trans hnone)⟩

end Recv

/-! ## One direction -/

/-- The PDUs whose senders took the slot, in this order. -/
def Conn.pdus (w : Conn) : List Pdu := w.installed.map Prod.snd

/-- Between the writer of one end and the reader of the other. -/
inductive Flow (w : Conn) (r : Recv) : Prop where
  /-- `rest` is not written yet. -/
  | intact {rest : List UInt8} : w.out ++ rest = wire w.pdus → (r.ahead rest).Intact w.pdus →
      Flow w r
  | broken {done : List Pdu} : r.dead = true → done <+: w.pdus →
      r.accepted = done.map Pdu.framed → wire done <+: w.out → Flow w r

section Direction

variable {w w' : Conn} {r r' : Recv}

/-- What the reader of an intact direction has, and what is on its way to it. -/
theorem out_of_intact {rest : List UInt8} (ho : w.out ++ rest = wire w.pdus)
    (h : (r.ahead rest).Intact w.pdus) : ∃ done, done <+: w.pdus ∧
      r.accepted = done.map Pdu.framed ∧ w.out = wire done ++ r.rpdu.buf.getD [] ++ r.stream := by
  cases h with
  | @idle done todo hp ha hr hs =>
      have hbuf : r.rpdu = .empty := hr
      refine ⟨done, ⟨todo, hp.symm⟩, ha, (List.append_left_inj rest).mp ?_⟩
      rw [ho, hp, wire_append, ← hs, hbuf]
      simp [Recv.ahead, Charbuf.empty]
  | @body done p todo k hp ha hk hr hs =>
      have hbuf : r.rpdu = ⟨some (p.framed.take k), p.size, k⟩ := hr
      have hsplit : p.framed ++ wire todo = p.framed.take k ++ (r.stream ++ rest) := by
        rw [show r.stream ++ rest = p.framed.drop k ++ wire todo from hs, ← List.append_assoc,
          List.take_append_drop]
      refine ⟨done, ⟨p :: todo, hp.symm⟩, ha, (List.append_left_inj rest).mp ?_⟩
      rw [ho, hp, wire_append, wire_cons, hsplit, hbuf]
      simp

theorem Flow.accepted (h : Flow w r) : ∃ done, done <+: w.pdus ∧
    r.accepted = done.map Pdu.framed ∧ wire done <+: w.out := by
  cases h with
  | intact ho hi =>
      obtain ⟨done, hd, ha, hout⟩ := out_of_intact ho hi
      exact ⟨done, hd, ha, hout ▸ ⟨r.rpdu.buf.getD [] ++ r.stream, by simp⟩⟩
  | broken _ hd ha hw => exact ⟨_, hd, ha, hw⟩

theorem flow_init : Flow .init (.init []) :=
  @Flow.intact _ _ [] rfl (@Recv.Intact.idle [] _ [] [] rfl rfl rfl rfl)

/-- The reader dies of its own end. -/
theorem Flow.die (h : Flow w r) {d : Bool} (hd : r.dead = true → d = true) :
    Flow w { r with dead := d } := by
  cases h with
  | intact ho hi => exact .intact ho (hi.frame rfl rfl rfl)
  | broken hdead hdone ha hw => exact .broken (hd hdead) hdone ha hw

/-- What the writer writes goes to the reader. -/
theorem Flow.write (h : Flow w r) (hg : w.Grows w') (hat : w'.AtomicBytes) :
    Flow w' { r with stream := r.stream ++ w'.out.drop w.out.length } := by
  obtain ⟨rest', hrest'⟩ := hat.prefix_wire
  obtain ⟨d, hout⟩ := hg.out
  have hdrop : w'.out.drop w.out.length = d := by rw [← hout, List.drop_left]
  rw [hdrop]
  cases h with
  | @intact rest ho hi =>
      have hahead : (r.ahead (d ++ rest')) =
          ({ r with stream := r.stream ++ d } : Recv).ahead rest' := by
        simp [Recv.ahead]
      refine .intact hrest' (hahead ▸ ?_)
      rcases hg.installed with he | ⟨hall, e, he⟩
      · -- the bytes come from what was left
        have hr : rest = d ++ rest' := by
          refine (List.append_right_inj w.out).mp ?_
          rw [ho, ← List.append_assoc, hout, hrest', Conn.pdus, he]
        rw [Conn.pdus, he, ← hr]
        exact hi
      · -- nothing was left, and the next PDU begins
        have hp : w'.pdus = w.pdus ++ [e.2] := by simp [Conn.pdus, he]
        have hnil : rest = [] := by
          refine (List.append_right_inj w.out).mp ?_
          rw [ho, List.append_nil]
          exact hall.symm
        subst hnil
        have hr : d ++ rest' = e.2.framed := by
          refine (List.append_right_inj w.out).mp ?_
          rw [← List.append_assoc, hout, hrest', ← Conn.pdus, hp, wire_append, Conn.pdus, ← hall]
          simp
        rw [hp, hr]
        have happ := hi.append e.2
        simpa [Recv.ahead] using happ
  | @broken done hd hdone ha hw =>
      have hp : w.pdus <+: w'.pdus := by
        rcases hg.installed with he | ⟨-, e, he⟩
        · have hpdus : w'.pdus = w.pdus := congrArg (List.map Prod.snd) he
          exact hpdus ▸ List.prefix_rfl
        · exact ⟨[e.2], by simp [Conn.pdus, he]⟩
      exact .broken hd (hdone.trans hp) ha (hw.trans hg.out)

/-- A `read_cb`. -/
theorem Flow.read {header body : ReadResult} {accept : Bool}
    (hmax : ∀ p ∈ w.pdus, p.size ≤ maxPdu) (h : Flow w r)
    (hn : r.next (.readCb header body accept) = some r') :
    Flow w r' ∧ r'.fault ≠ some .overrun := by
  cases h with
  | @intact rest ho hi =>
      rcases hi.read hmax (Recv.next_ahead rest hn) with ⟨hi', hf⟩ | ⟨hd, ha, hf⟩
      · refine ⟨.intact ho hi', fun hov => ?_⟩
        rcases hf with hf | hf <;> cases hf.symm.trans hov
      · obtain ⟨done, hdone, hacc, hout⟩ := out_of_intact ho hi
        refine ⟨.broken hd hdone (Eq.trans ha hacc) ?_, fun hov => by cases hf.symm.trans hov⟩
        rw [hout, List.append_assoc]
        exact List.prefix_append _ _
  | broken hd hdone ha hw =>
      obtain ⟨hf, rfl⟩ := Recv.next_of_dead hd hn
      exact ⟨.broken hd hdone ha hw, by simp [hf]⟩

end Direction

/-! ## Both directions -/

namespace Side

theorem ne_peer (e : Side) : e ≠ e.peer := by cases e <;> decide

@[simp] theorem peer_peer (e : Side) : e.peer.peer = e := by cases e <;> rfl

theorem eq_or_eq_peer (e f : Side) : f = e ∨ f = e.peer := by
  cases e <;> cases f <;> decide

end Side

namespace Endpoint

variable {x x' : Endpoint} {a : EndAct}

/-- The steps of one end.  A critical section of the writing half may kill the
connection, and so may a read. -/
inductive Step (x : Endpoint) : EndAct → Endpoint → Prop where
  | write {a : ConnAct} {w : Conn} : x.w.next a = some w →
      Step x (.write a) ⟨w, { x.r with dead := w.dead }⟩
  | read {header body : ReadResult} {accept : Bool} {t : Option Nat} {r : Recv} :
      x.r.next (.readCb header body accept) = some r → r.dead = x.w.dead →
      Step x (.read header body accept t) ⟨x.w, r⟩
  | readFail {header body : ReadResult} {accept : Bool} {t : Option Nat} {r : Recv} {w : Conn} :
      x.r.next (.readCb header body accept) = some r → r.dead ≠ x.w.dead →
      x.w.next (.readFail t) = some w → Step x (.read header body accept t) ⟨w, r⟩

theorem step_inv (h : x.next a = some x') : x.Step a x' := by
  cases a with
  | write a =>
      have key : (if x.stopped then none
          else (x.w.next a).map fun w => (⟨w, { x.r with dead := w.dead }⟩ : Endpoint)) =
          some x' := by
        cases a with
        | readFail _ => cases h
        | _ => exact h
      split at key
      · cases key
      · obtain ⟨w, hw, rfl⟩ := Option.map_eq_some_iff.mp key
        exact .write hw
  | read header body accept t =>
      unfold Endpoint.next at h
      simp only at h
      split at h
      · cases h
      · obtain ⟨r, hr, h⟩ := Option.bind_eq_some_iff.mp h
        split at h
        · next hd =>
            cases h
            exact .read hr hd
        · next hd =>
            obtain ⟨w, hw, rfl⟩ := Option.map_eq_some_iff.mp h
            exact .readFail hr hd hw

end Endpoint

/-- The PDUs that are handed to `send` on either end have the property `P`. -/
def Link.Sends (P : Pdu → Prop) (_ : Link) (a : Side × EndAct) : Prop :=
  ∀ t p r, a.2 = .write (.send t p r) → P p

namespace Endpoint

variable {x x' : Endpoint} {a : EndAct} {P : Pdu → Prop}

/-- What one end knows by itself. -/
structure Good (P : Pdu → Prop) (x : Endpoint) : Prop where
  writes : x.w.Writes
  pdus : x.w.AllPdus P
  /-- There is one `dead_`. -/
  dead : x.r.dead = x.w.dead
  bounded : x.r.fault ≠ some .overrun

theorem good_init : Good P init where
  writes := Conn.writes_init
  pdus := Conn.allPdus_init P
  dead := rfl
  bounded := by simp [init, Recv.init]

/-- A step of one end keeps both directions. -/
theorem Good.next (hx : x.Good P) (hsend : ∀ t p r, a = .write (.send t p r) → P p)
    {w₀ : Conn} (hmax : ∀ p ∈ w₀.pdus, p.size ≤ maxPdu) (hf : Flow w₀ x.r)
    (hn : x.next a = some x') : x'.Good P ∧ x.w.Grows x'.w ∧ Flow w₀ x'.r := by
  cases step_inv hn with
  | @write ca w hw =>
      have hst := Conn.step_of_next hw
      have hdead : x.r.dead = true → w.dead = true := fun hd =>
        (Conn.step_of_dead (hx.dead ▸ hd) hst).1
      have hs : ∀ t p r, ca = .send t p r → P p := fun t p r hc => hsend t p r (hc ▸ rfl)
      exact ⟨⟨Conn.writes_step hx.writes hst, hx.pdus.step hs hst, rfl, hx.bounded⟩,
        Conn.grows_of_step hx.writes hst, hf.die hdead⟩
  | read hr hd =>
      obtain ⟨hflow, hov⟩ := hf.read hmax hr
      exact ⟨⟨hx.writes, hx.pdus, hd, hov⟩, .of_eq rfl rfl, hflow⟩
  | @readFail _ _ _ t r w hr hd hw =>
      obtain ⟨hflow, hov⟩ := hf.read hmax hr
      have hst := Conn.step_of_next hw
      -- only a live connection can die
      have hlive : x.w.dead = false := Bool.eq_false_iff.mpr fun hdead =>
        hd (by rw [(Recv.next_of_dead (hx.dead.trans hdead) hr).2, hx.dead])
      have hr' : r.dead = true := by
        rw [hlive] at hd
        simpa using hd
      have hw' : w.dead = true := by
        have h : x.w.readFail t = some w := hst
        unfold Conn.readFail at h
        rw [if_neg (by simp [hlive])] at h
        obtain ⟨c, -, rfl⟩ := Option.map_eq_some_iff.mp h
        rfl
      exact ⟨⟨Conn.writes_step hx.writes hst, hx.pdus.step (fun _ _ _ hc => by cases hc) hst,
        hr'.trans hw'.symm, hov⟩, Conn.grows_of_step hx.writes hst, hflow⟩

end Endpoint

namespace Link

variable {s s' : Link} {P : Pdu → Prop}

structure Good (P : Pdu → Prop) (s : Link) : Prop where
  ends : ∀ e, (s e).Good P
  flow : ∀ e : Side, Flow (s e).w (s e.peer).r

theorem good_init : Good P linkMachine.init := ⟨fun _ => Endpoint.good_init, fun _ => flow_init⟩

theorem Good.next (hP : ∀ p, P p → p.size ≤ maxPdu) (h : s.Good P) {a : Side × EndAct}
    (hsend : s.Sends P a) (hn : s.next a = some s') : s'.Good P := by
  obtain ⟨e, a⟩ := a
  obtain ⟨x, hx, rfl⟩ := Option.map_eq_some_iff.mp hn
  have hmax : ∀ p ∈ (s e.peer).w.pdus, p.size ≤ maxPdu := by
    intro p hp
    obtain ⟨i, hi, rfl⟩ := List.mem_map.mp hp
    exact hP _ ((h.ends e.peer).pdus.installed i hi)
  have hback : Flow (s e.peer).w (s e).r := by simpa using h.flow e.peer
  obtain ⟨hgood, hgrows, hflow⟩ := (h.ends e).next hsend hmax hback hx
  have hpeer : e.peer ≠ e := e.ne_peer.symm
  refine ⟨fun f => ?_, fun f => ?_⟩
  · rcases e.eq_or_eq_peer f with rfl | rfl
    · simpa using hgood
    · have hp := h.ends e.peer
      simp only [if_neg hpeer]
      exact ⟨hp.writes, hp.pdus, hp.dead, hp.bounded⟩
  · rcases e.eq_or_eq_peer f with rfl | rfl
    · simp only [if_true, if_neg hpeer]
      exact (h.flow f).write hgrows hgood.writes.slot.atomicBytes
    · simp only [if_neg hpeer, Side.peer_peer, if_true]
      exact hflow

theorem good_of_reachedVia (hP : ∀ p, P p → p.size ≤ maxPdu)
    (h : linkMachine.ReachedVia (Sends P) s) : s.Good P :=
  h.invariant good_init fun _ _ _ hs hg hn => hs.next hP hg hn

end Link

/-! ## Messages -/

/-- The PDU is a marshalled message that the reader does not reject for its size. -/
def Carries (p : Pdu) (h : Header) (vs : List Value) : Prop :=
  rpcHeaderSz + (payload vs).length ≤ maxPdu ∧ ∃ junk pre post m, vs = pre ++ post ∧
    marshalled junk h pre post = some m ∧ p.bytes = m.content

/-- The PDU is some message. -/
def IsMessage (p : Pdu) : Prop := ∃ h vs, Carries p h vs

theorem Carries.size_le {p : Pdu} {h : Header} {vs : List Value} (hc : Carries p h vs) :
    p.size ≤ maxPdu := by
  obtain ⟨hsize, junk, pre, post, m, rfl, hm, hp⟩ := hc
  have hmax : maxPdu ≤ 2 ^ 30 := by decide
  obtain ⟨m', hm', hwf, hind, -⟩ := marshalled_content junk h pre post (hsize.trans hmax)
  cases hm.symm.trans hm'
  rw [Pdu.size, hp, hwf.length_content, hind]
  exact hsize

/-- What arrives unmarshalls to the message. -/
theorem Carries.reads {p : Pdu} {h : Header} {vs : List Value} (hc : Carries p h vs) :
    Unmarshall.Reads p.framed p.framed.length h vs := by
  obtain ⟨hsize, junk, pre, post, m, rfl, hm, hp⟩ := hc
  have hmax : maxPdu ≤ 2 ^ 30 := by decide
  rw [Pdu.length_framed]
  exact reads_framed hm (hsize.trans hmax) hp

namespace Link

variable {s : Link}

/-- PDUs on the wire are told apart by how many bytes there are. -/
theorem prefix_of_wire_prefix {ps qs all : List Pdu} (hp : ps <+: all) (hq : qs <+: all)
    (hw : wire ps <+: wire qs) : ps <+: qs := by
  rcases List.prefix_or_prefix_of_prefix hp hq with h | ⟨rest, rfl⟩
  · exact h
  · have hlen := hw.length_le
    rw [wire_append, List.length_append] at hlen
    have hnil : wire rest = [] := List.eq_nil_of_length_eq_zero (by omega)
    exact ⟨[], by rw [wire_eq_nil hnil, List.append_nil, List.append_nil]⟩

/-- Nothing is lost on the way to a reader that is not dead. -/
theorem Good.out_eq {P : Pdu → Prop} (h : s.Good P) (e : Side)
    (hd : (s e.peer).r.dead = false) : ∃ done, done <+: (s e).w.pdus ∧
      (s e.peer).r.accepted = done.map Pdu.framed ∧
      (s e).w.out = wire done ++ (s e.peer).r.rpdu.buf.getD [] ++ (s e.peer).r.stream := by
  cases h.flow e with
  | intact ho hi => exact out_of_intact ho hi
  | broken hdead => cases hd.symm.trans hdead

/-- A PDU whose `send` returned true is accepted once everything is read and nothing waits
to be offered again. -/
theorem Good.arrived {P : Pdu → Prop} (h : s.Good P) (e : Side) {t : Nat} {p : Pdu}
    (hsent : (s e).w.SentOnce t p) (hd : (s e.peer).r.dead = false)
    (hread : (s e.peer).r.stream = []) (hoff : (s e.peer).r.rpdu.buf = none) :
    p.framed ∈ (s e.peer).r.accepted := by
  obtain ⟨before, after, hi, hw, -⟩ := hsent
  obtain ⟨done, hdone, ha, ho⟩ := h.out_eq e hd
  rw [hread, hoff, Option.getD_none, List.append_nil, List.append_nil] at ho
  have hpre : (before ++ [(t, p)]).map Prod.snd <+: (s e).w.pdus :=
    ⟨after.map Prod.snd, by simp [Conn.pdus, hi]⟩
  have hle := prefix_of_wire_prefix hpre hdone (ho ▸ hw)
  rw [ha]
  refine List.mem_map.mpr ⟨p, hle.subset ?_, rfl⟩
  simp

/-- Each end sends messages from any number of threads, and writes and reads fail as they
like.  What one end accepted are the messages that the other end began with, in the order
in which their threads took the slot: each unmarshalls to what was marshalled and comes
from a thread of its own.  No byte is lost before the reading end is dead, so a message
whose `send` returned true is among them when everything is read and accepted.  The reader
never writes past the end of its buffer. -/
theorem messages_arrive (h : linkMachine.ReachedVia (Sends IsMessage) s) (e : Side) :
    (∃ done, done <+: (s e).w.installed ∧ (done.map Prod.fst).Nodup ∧
      wire (done.map Prod.snd) <+: (s e).w.out ∧
      List.Forall₂ (fun i b => b = i.2.framed ∧ IsMessage i.2 ∧
        ∀ h vs, Carries i.2 h vs → Unmarshall.Reads b b.length h vs)
        done (s e.peer).r.accepted) ∧
    ((s e.peer).r.dead = false →
      (s e).w.out = (s e.peer).r.accepted.flatten ++ (s e.peer).r.rpdu.buf.getD [] ++
        (s e.peer).r.stream) ∧
    (∀ t p, (s e).w.senders t = some ⟨p, .returned true⟩ → (s e).w.SentOnce t p ∧
      ((s e.peer).r.dead = false → (s e.peer).r.stream = [] → (s e.peer).r.rpdu.buf = none →
        p.framed ∈ (s e.peer).r.accepted)) ∧
    (s e.peer).r.fault ≠ some .overrun := by
  have hg := good_of_reachedVia (fun p hp => hp.choose_spec.choose_spec.size_le) h
  refine ⟨?_, fun hd => ?_, fun t p ht => ?_, (hg.ends e.peer).bounded⟩
  · obtain ⟨ps, ⟨rest, hps⟩, ha, hw⟩ := (hg.flow e).accepted
    -- the threads of the PDUs that were accepted
    have hdone : ((s e).w.installed.take ps.length).map Prod.snd = ps := by
      rw [List.map_take, ← Conn.pdus, ← hps, List.take_left]
    refine ⟨(s e).w.installed.take ps.length, List.take_prefix _ _, ?_, hdone.symm ▸ hw, ?_⟩
    · rw [List.map_take]
      exact (hg.ends e).writes.once.sublist (List.take_sublist _ _)
    · have hacc : (s e.peer).r.accepted =
          ((s e).w.installed.take ps.length).map fun i => i.2.framed := by
        rw [ha]
        nth_rewrite 1 [← hdone]
        exact List.map_map
      rw [hacc, List.forall₂_map_right_iff]
      refine List.forall₂_same.mpr fun i hi => ⟨rfl, ?_, fun h vs hc => hc.reads⟩
      exact (hg.ends e).pdus.installed i (List.mem_of_mem_take hi)
  · obtain ⟨done, -, ha, ho⟩ := hg.out_eq e hd
    rw [ho, ha]
    rfl
  · have hsent := (hg.ends e).writes.sent t _ ht rfl
    exact ⟨hsent, fun hd hread hoff => hg.arrived e hsent hd hread hoff⟩

/-! ### A reply in two writes -/

/-- A marshalled reply with one value. -/
def replyPdu : Pdu :=
  ⟨RpcLock.wire (List.replicate 24 0) (.reply ⟨7, 0⟩) [⟨.int, (5 : Int32)⟩], by decide,
    by decide +kernel⟩

theorem isMessage_replyPdu : IsMessage replyPdu := by
  obtain ⟨m, hm, -, -, hc⟩ :=
    marshalled_content (fun _ => 0) (.reply ⟨7, 0⟩) [] [⟨.int, (5 : Int32)⟩] (by decide)
  have hjunk : (Marshall.init fun _ => 0).content = List.replicate 24 0 := by
    rw [Marshall.content, Marshall.init, List.map_const', List.length_range, List.take_replicate]
    rfl
  rw [hjunk] at hc
  exact ⟨.reply ⟨7, 0⟩, [⟨.int, (5 : Int32)⟩], by decide, fun _ => 0, [], _, m, rfl, hm, hc.symm⟩

/-- The server reads what has arrived of the reply before the rest is written. -/
def replyInTwo : List (Side × EndAct) :=
  [(.client, .write (.send 1 replyPdu (.wrote 10))),
    (.server, .read (.got 4) (.got 6) true none),
    (.client, .write (.writeCb (.wrote 18) (some 1))),
    (.client, .write (.resumeComplete 1)),
    (.server, .read (.got 4) (.got 18) true none)]

def onlyReply : Side × EndAct → Bool
  | (_, .write (.send _ p _)) => decide (p = replyPdu)
  | _ => true

theorem sends_of_onlyReply {a : Side × EndAct} (h : onlyReply a = true) :
    s.Sends IsMessage a := by
  obtain ⟨e, a⟩ := a
  rintro t p r rfl
  rw [of_decide_eq_true h]
  exact isMessage_replyPdu

theorem messages_arrive_replyInTwo : ∃ s, linkMachine.ReachedVia (Sends IsMessage) s ∧
    (s .client).w.SentOnce 1 replyPdu ∧ replyPdu.framed ∈ (s .server).r.accepted := by
  obtain ⟨s, hs, hp⟩ := @Machine.exists_reachedVia_of_run _ _ linkMachine
    (fun _ a => onlyReply a = true) _
    (fun s => decide ((s .client).w.senders 1 = some ⟨replyPdu, .returned true⟩ ∧
      (s .server).r.dead = false ∧ (s .server).r.stream = [] ∧ (s .server).r.rpdu.buf = none))
    replyInTwo (by decide)
  obtain ⟨ht, hd, hread, hoff⟩ := of_decide_eq_true hp
  have hs := hs.mono (H := Sends IsMessage) fun _ _ => sends_of_onlyReply
  obtain ⟨-, -, hsent, -⟩ := messages_arrive hs .client
  obtain ⟨honce, harr⟩ := hsent 1 replyPdu ht
  exact ⟨s, hs, honce, harr hd hread hoff⟩

end Link

end RpcLock.Connection
