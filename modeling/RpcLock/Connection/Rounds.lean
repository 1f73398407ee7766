import RpcLock.Connection.WriteCallback
import RpcLock.PollMgr.Steps

/-!
# The rounds of one descriptor

`PolledConn` follows the poll thread through its rounds with one descriptor in
view.  Here these are read off `wait_loop`: what `PollMgr` does, seen from one
descriptor, is a move of a round, and the moves of a round are the steps of
`PolledConn`.
-/

namespace RpcLock.Connection

/-- What the poll thread has of `fd`. -/
def roundOf (fd : Nat) : PollPhase → Round
  | .top | .clear => .idle
  | .selecting trfds twfds _ => .selecting (decide (fd ∈ trfds)) (decide (fd ∈ twfds))
  | .looping due => .due (decide (.read fd ∈ due)) (decide (.write fd ∈ due))
  | .checked c due | .inside c due =>
      if c = .read fd then .inRead (decide (.write fd ∈ due))
      else if c = .write fd then .inWrite
      else .due (decide (.read fd ∈ due)) (decide (.write fd ∈ due))

/-- The moves of a round, for a descriptor with these bits in the sets and with or
without a callback. -/
inductive Round.Move (watchRd watchWr callback : Bool) : Round → Round → Prop where
  | copy : Move watchRd watchWr callback .idle (.selecting watchRd watchWr)
  | select {r w rd wr : Bool} : rd ≤ r → wr ≤ w →
      Move watchRd watchWr callback (.selecting r w) (.due rd wr)
  | testRead {wr : Bool} : Move watchRd watchWr callback (.due true wr)
      (if callback then .inRead wr else .due false wr)
  | testWrite : Move watchRd watchWr callback (.due false true)
      (if callback then .inWrite else .due false false)
  | finish : Move watchRd watchWr callback (.due false false) .idle
  | leaveRead {wr : Bool} : Move watchRd watchWr callback (.inRead wr) (.due false wr)
  | leaveWrite : Move watchRd watchWr callback .inWrite (.due false false)

/-- First reads, then writes, and none twice. -/
def Ordered (due : List Callback) : Prop :=
  ∃ rs ws : List Nat, due = rs.map .read ++ ws.map .write ∧ rs.Nodup ∧ ws.Nodup

/-- What is left of the ready lists is ordered. -/
def OrderedPhase : PollPhase → Prop
  | .top | .clear | .selecting _ _ _ => True
  | .looping due => Ordered due
  | .checked c due | .inside c due => Ordered (c :: due)

variable {c : Callback} {due : List Callback} {fd : Nat}

theorem ordered_nil : Ordered [] := ⟨[], [], rfl, List.nodup_nil, List.nodup_nil⟩

theorem ordered_readyCallbacks (pipefd high : Nat) (trfds twfds : Finset Nat) :
    Ordered (readyCallbacks pipefd high trfds twfds) :=
  ⟨_, _, rfl, List.nodup_range.filter _, List.nodup_range.filter _⟩

theorem Ordered.tail (h : Ordered (c :: due)) : Ordered due := by
  obtain ⟨rs, ws, he, hrs, hws⟩ := h
  cases rs with
  | cons r rs =>
      cases he
      exact ⟨rs, ws, rfl, hrs.of_cons, hws⟩
  | nil =>
      cases ws with
      | nil => cases he
      | cons w ws =>
          cases he
          exact ⟨[], ws, rfl, List.nodup_nil, hws.of_cons⟩

/-- A callback is due once. -/
theorem Ordered.not_mem (h : Ordered (c :: due)) : c ∉ due := by
  obtain ⟨rs, ws, he, hrs, hws⟩ := h
  cases rs with
  | cons r rs =>
      cases he
      intro hc
      rcases List.mem_append.mp hc with hc | hc
      · obtain ⟨r', hr', he⟩ := List.mem_map.mp hc
        cases he
        exact (List.nodup_cons.mp hrs).1 hr'
      · obtain ⟨w, -, he⟩ := List.mem_map.mp hc
        cases he
  | nil =>
      cases ws with
      | nil => cases he
      | cons w ws =>
          cases he
          intro hc
          obtain ⟨w', hw', he⟩ := List.mem_map.mp hc
          cases he
          exact (List.nodup_cons.mp hws).1 hw'

/-- Behind a write there are no reads. -/
theorem Ordered.read_not_mem (h : Ordered (.write fd :: due)) (i : Nat) : .read i ∉ due := by
  obtain ⟨rs, ws, he, -, -⟩ := h
  cases rs with
  | cons r rs => cases he
  | nil =>
      cases ws with
      | nil => cases he
      | cons w ws =>
          cases he
          simp

/-! ## From `wait_loop` -/

section

variable {s s' : PollMgr} {a : PollMgrAct} {p : PollPhase}

theorem ordered_advance (h : OrderedPhase s.poll) (hp : s.Advance p) : OrderedPhase p := by
  cases hp with
  | copy _ | finish _ => exact trivial
  | interrupted _ => exact ordered_nil
  | ready _ _ _ => exact ordered_readyCallbacks _ _ _ _
  | test hp _ | enter hp =>
      rw [hp] at h
      exact h
  | skip hp _ | leave hp =>
      rw [hp] at h
      exact Ordered.tail h

theorem ordered_step (h : OrderedPhase s.poll) (hn : s.next a = some s') :
    OrderedPhase s'.poll := by
  cases PollMgr.next_move hn with
  | head _ _ => exact trivial
  | poll hp => exact ordered_advance h hp
  | add | del _ | store _ | removeUnwatch _ _ _ | removeWait _ | removeReturn _ _ _ => exact h

theorem ordered_of_reachable {pipefd : Nat} (h : (pollMgrMachine pipefd).Reachable s) :
    OrderedPhase s.poll :=
  h.invariant (P := fun s => OrderedPhase s.poll) (by exact trivial) fun _ _ _ hs hn =>
    ordered_step hs hn

theorem callback_cases (c : Callback) (fd : Nat) :
    c = .read fd ∨ c = .write fd ∨ (c ≠ .read fd ∧ c ≠ .write fd) := by
  tauto

/-- A callback for another descriptor does not show. -/
theorem roundOf_of_ne (hr : c ≠ .read fd) (hw : c ≠ .write fd) :
    roundOf fd (.looping (c :: due)) = roundOf fd (.looping due) ∧
      roundOf fd (.checked c due) = roundOf fd (.looping due) := by
  simp [roundOf, hr, hw, Ne.symm hr, Ne.symm hw]

theorem roundOf_read (h : Ordered (.read fd :: due)) :
    roundOf fd (.looping (.read fd :: due)) = .due true (decide (.write fd ∈ due)) ∧
      roundOf fd (.checked (.read fd) due) = .inRead (decide (.write fd ∈ due)) ∧
      roundOf fd (.looping due) = .due false (decide (.write fd ∈ due)) := by
  simp [roundOf, h.not_mem]

theorem roundOf_write (h : Ordered (.write fd :: due)) :
    roundOf fd (.looping (.write fd :: due)) = .due false true ∧
      roundOf fd (.checked (.write fd) due) = .inWrite ∧
      roundOf fd (.looping due) = .due false false := by
  simp [roundOf, h.not_mem, h.read_not_mem fd]

/-- A step of the poll thread is a move of the round of each descriptor, or does
not show in it. -/
theorem round_advance (h : OrderedPhase s.poll) (hp : s.Advance p) :
    roundOf fd p = roundOf fd s.poll ∨
      Round.Move (decide (fd ∈ s.aio.rfds)) (decide (fd ∈ s.aio.wfds)) (s.callbacks fd).isSome
        (roundOf fd s.poll) (roundOf fd p) := by
  cases hp with
  | copy hp =>
      rw [hp]
      exact .inr .copy
  | interrupted hp =>
      rw [hp]
      exact .inr (.select (Bool.false_le _) (Bool.false_le _))
  | ready hp hr hw =>
      rw [hp]
      refine .inr (.select (fun hi => ?_) fun hi => ?_)
      · exact decide_eq_true (hr (read_mem_readyCallbacks.mp (of_decide_eq_true hi)).2.1)
      · exact decide_eq_true (hw (write_mem_readyCallbacks.mp (of_decide_eq_true hi)).2.1)
  | finish hp =>
      rw [hp]
      exact .inr .finish
  | enter hp =>
      rw [hp]
      exact .inl rfl
  | @test c due hp hcb =>
      rw [hp] at h ⊢
      rcases callback_cases c fd with rfl | rfl | ⟨hread, hwrite⟩
      · obtain ⟨h₀, h₁, -⟩ := roundOf_read h
        rw [h₀, h₁, show (s.callbacks fd).isSome = _ from hcb]
        exact .inr .testRead
      · obtain ⟨h₀, h₁, -⟩ := roundOf_write h
        rw [h₀, h₁, show (s.callbacks fd).isSome = _ from hcb]
        exact .inr .testWrite
      · obtain ⟨h₀, h₁⟩ := @roundOf_of_ne c due fd hread hwrite
        exact .inl (h₁.trans h₀.symm)
  | @skip c due hp hcb =>
      rw [hp] at h ⊢
      rcases callback_cases c fd with rfl | rfl | ⟨hread, hwrite⟩
      · obtain ⟨h₀, -, h₁⟩ := roundOf_read h
        rw [h₀, h₁, show (s.callbacks fd).isSome = _ from hcb]
        exact .inr .testRead
      · obtain ⟨h₀, -, h₁⟩ := roundOf_write h
        rw [h₀, h₁, show (s.callbacks fd).isSome = _ from hcb]
        exact .inr .testWrite
      · exact .inl (roundOf_of_ne hread hwrite).1.symm
  | @leave c due hp =>
      rw [hp] at h ⊢
      rcases callback_cases c fd with rfl | rfl | ⟨hread, hwrite⟩
      · obtain ⟨-, h₀, h₁⟩ := roundOf_read h
        rw [h₁, show roundOf fd (.inside (.read fd) due) = _ from h₀]
        exact .inr .leaveRead
      · obtain ⟨-, h₀, h₁⟩ := roundOf_write h
        rw [h₁, show roundOf fd (.inside (.write fd) due) = _ from h₀]
        exact .inr .leaveWrite
      · exact .inl (roundOf_of_ne hread hwrite).2.symm

/-- Every step of `PollMgr` is a move of the round of each descriptor, for the sets
and the callbacks it finds, or does not show in it. -/
theorem round_of_next {pipefd : Nat} (h : (pollMgrMachine pipefd).Reachable s)
    (hn : s.next a = some s') (fd : Nat) :
    roundOf fd s'.poll = roundOf fd s.poll ∨
      Round.Move (decide (fd ∈ s.aio.rfds)) (decide (fd ∈ s.aio.wfds)) (s.callbacks fd).isSome
        (roundOf fd s.poll) (roundOf fd s'.poll) := by
  cases PollMgr.next_move hn with
  | head _ hp =>
      rw [hp]
      exact .inl rfl
  | poll hp => exact round_advance (ordered_of_reachable h) hp
  | add | del _ | store _ | removeUnwatch _ _ _ | removeWait _ | removeReturn _ _ _ =>
      exact .inl rfl

end

/-! ## To the connection -/

/-- The steps of the poll thread. -/
def PolledConnAct.ofPoll : PolledConnAct → Bool
  | .other _ | .removed => false
  | _ => true

namespace PolledConn

variable {s s' : PolledConn} {a : PolledConnAct} {d : Round}

/-- A `write_cb` that finds the socket full is always possible. -/
theorem exists_writeCb (c : Conn) : ∃ w c', c.writeCb .again w = some c' := by
  obtain ⟨w, v, hv⟩ := c.sendComplete.exists_signal
  obtain ⟨b, o, hpdu⟩ : ∃ b o, c.writepdu .again = some ({ c with wpdu := b, out := o }, true) := by
    unfold Conn.writepdu
    dsimp only
    split
    · exact ⟨c.wpdu, c.out, rfl⟩
    · exact ⟨_, c.out, rfl⟩
  refine ⟨w, ?_⟩
  unfold Conn.writeCb
  rw [hpdu]
  dsimp only
  rw [hv]
  split_ifs <;> exact ⟨_, rfl⟩

theorem next_of_step (hab : s.conn.aborted = false) (hs : s.step a = some s') :
    s.next a = some s' := by
  rw [next, hab]
  exact hs

/-- The moves of the round are the steps of the poll thread. -/
theorem move_iff (hab : s.conn.aborted = false) :
    Round.Move s.conn.watchRd s.conn.watchWr s.callback s.round d ↔
      ∃ a s', a.ofPoll = true ∧ s.next a = some s' ∧ s'.round = d := by
  obtain ⟨conn, callback, removing, round⟩ := s
  constructor
  · intro hm
    cases hm with
    | copy => exact ⟨.copy, _, rfl, next_of_step hab rfl, rfl⟩
    | @select r w rd wr hr hw =>
        exact ⟨.select rd wr, _, rfl, next_of_step hab (if_pos ⟨hr, hw⟩), rfl⟩
    | testRead => exact ⟨.check, _, rfl, next_of_step hab rfl, rfl⟩
    | testWrite => exact ⟨.check, _, rfl, next_of_step hab rfl, rfl⟩
    | finish => exact ⟨.check, _, rfl, next_of_step hab rfl, rfl⟩
    | leaveRead => exact ⟨.readOk, _, rfl, next_of_step hab rfl, rfl⟩
    | leaveWrite =>
        obtain ⟨w, c, hc⟩ := exists_writeCb conn
        have hcn : conn.next (.writeCb .again w) = some c := by
          rw [Conn.next, show conn.aborted = false from hab]
          exact hc
        exact ⟨.writeCb .again w, _, rfl,
          next_of_step hab (Option.map_eq_some_iff.mpr ⟨c, hcn, rfl⟩), rfl⟩
  · rintro ⟨a, s', ha, hn, rfl⟩
    obtain ⟨-, hn⟩ := step_of_next hn
    cases a with
    | other _ | removed => cases ha
    | copy =>
        cases round with
        | idle =>
            cases hn
            exact .copy
        | _ => cases hn
    | select rd wr =>
        cases round with
        | selecting r w =>
            simp only [step] at hn
            split at hn
            · next hle =>
                cases hn
                exact .select hle.1 hle.2
            · cases hn
        | _ => cases hn
    | check =>
        cases round with
        | due rd wr =>
            cases hn
            cases rd with
            | true => exact .testRead
            | false =>
                cases wr with
                | true => exact .testWrite
                | false => exact .finish
        | _ => cases hn
    | readOk =>
        cases round with
        | inRead wr =>
            cases hn
            exact .leaveRead
        | _ => cases hn
    | readFail w =>
        cases round with
        | inRead wr =>
            obtain ⟨c, -, rfl⟩ := Option.map_eq_some_iff.mp hn
            exact .leaveRead
        | _ => cases hn
    | writeCb r w =>
        cases round with
        | inWrite =>
            obtain ⟨c, -, rfl⟩ := Option.map_eq_some_iff.mp hn
            exact .leaveWrite
        | _ => cases hn

/-- Where a connection and `PollMgr` agree on a descriptor, the steps of
`PollMgr` are steps of the poll thread of the connection. -/
theorem follows_pollMgr {pipefd : Nat} {m m' : PollMgr} {b : PollMgrAct}
    (h : (pollMgrMachine pipefd).Reachable m) (hn : m.next b = some m') {fd : Nat}
    (hab : s.conn.aborted = false) (hround : s.round = roundOf fd m.poll)
    (hrd : s.conn.watchRd = decide (fd ∈ m.aio.rfds))
    (hwr : s.conn.watchWr = decide (fd ∈ m.aio.wfds))
    (hcb : s.callback = (m.callbacks fd).isSome) :
    roundOf fd m'.poll = s.round ∨
      ∃ a s', a.ofPoll = true ∧ s.next a = some s' ∧ s'.round = roundOf fd m'.poll := by
  rcases round_of_next h hn fd with hstay | hmove
  · exact .inl (hstay.trans hround.symm)
  · rw [← hround, ← hrd, ← hwr, ← hcb] at hmove
    exact .inr ((move_iff hab).mp hmove)

end PolledConn

end RpcLock.Connection
