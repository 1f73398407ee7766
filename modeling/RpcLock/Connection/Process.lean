import RpcLock.PollMgr.Reuse
import RpcLock.Library.RefCount

/-!
# The connections of a process

Connections are shared by hand.  `new connection` comes with one reference, and
`incref` makes more.  The `decref` that gives the last one back deletes a dead
connection, which closes its descriptor, and `accept` or `socket` may return that
descriptor again.  The poll thread has no reference.  It calls what it finds in
`callbacks_`.

`Process` is `PollMgr` with the connections, the references and the open
descriptors.  A connection dies on the poll thread after a `del_callback`, or by
the owner of a reference, who then calls `block_remove_fd`: in `closeconn`, or in a
`send` whose write fails.  `tcpsconn` keeps the reference that came with a
connection it accepted in `conns_`, and gives it back once the connection is dead
and nobody else has one.

The wait of `block_remove_fd` is `PollMgr.step`'s: it is assumed to return after a
broadcast only.  `~tcpsconn` gives the references of `conns_` back and leaves the
entries in the map.  Here an entry goes with its reference.  Nobody reads it any
more: `process_accept` runs on the thread that `~tcpsconn` has joined, and the map
dies with the object.

An object has a new name each time, and a `connection` stays under its name when it
is deleted.
-/

namespace RpcLock.Connection

/-- A `connection`, as far as its life goes. -/
structure ConnObj where
  fd : Nat
  dead : Bool
  refno : Nat
  /-- `m_` is held over a call of `PollMgr` or of the poll thread. -/
  locked : Bool
  deleted : Bool
  /-- The reference that came with it. -/
  maker : Nat
deriving DecidableEq, Repr

/-- What the owner of a reference is about. -/
inductive RefPhase where
  /-- In the constructor, before its `add_callback`. -/
  | making
  /-- In `add_callback`, after `watch_fd`. -/
  | adding (flag : PollFlag)
  /-- The constructor has returned. -/
  | made
  | held
  /-- In `conns_`. -/
  | kept
  /-- Has marked the connection dead, and is about to call `block_remove_fd`. -/
  | failed
  /-- In `block_remove_fd`. -/
  | removing
  | dropped
deriving DecidableEq, Repr

/-- A reference to a connection. -/
structure Ref where
  conn : Nat
  phase : RefPhase
deriving DecidableEq, Repr

/-- How far the poll thread is in a callback. -/
inductive CbPhase where
  /-- It has the pointer. -/
  | entered
  /-- It has `m_`. -/
  | locked
  /-- In `del_callback`, with `CB_RDWR` or `CB_WRONLY`. -/
  | deleting (rdwr : Bool)
  | finished
deriving DecidableEq, Repr

/-- A process. -/
structure Process where
  mgr : PollMgr
  objs : Nat → Option ConnObj
  refs : Nat → Option Ref
  /-- The references that were ever made. -/
  ids : List Nat
  openFds : Finset Nat
  /-- The connection in whose callback the poll thread is. -/
  current : Option (Nat × CbPhase)
  /-- `conns_`, with the reference of each entry. -/
  conns : List (Nat × Nat)
  /-- The entry `process_accept` is about to collect. -/
  collecting : Option (Nat × Nat)

inductive ProcessAct where
  /-- `new connection`, for a descriptor that `accept` or `socket` returned. -/
  | new (k c fd : Nat)
  /-- The `add_callback` of the constructor, up to the end of `watch_fd`. -/
  | register (k : Nat)
  /-- The `add_callback` of `send`, up to the end of `watch_fd`. -/
  | watch (k : Nat)
  /-- The rest of an `add_callback`. -/
  | added (k : Nat)
  /-- `connect_to_dst` returns the connection. -/
  | take (k : Nat)
  /-- `process_accept` puts the connection into `conns_`. -/
  | store (k : Nat)
  /-- `process_accept` finds a dead connection with `ref() == 1`. -/
  | pick (fd k : Nat)
  /-- It gives the reference back and erases the entry. -/
  | collect
  /-- `~tcpsconn` comes to an entry. -/
  | release (fd k : Nat)
  /-- The owner of the reference `k` makes another one. -/
  | incref (k k' : Nat)
  /-- `got_pdu` makes a reference. -/
  | retain (k : Nat)
  | decref (k : Nat)
  /-- The critical section of `closeconn` on a live connection, or the one in which
  the write of a `send` fails. -/
  | fail (k : Nat)
  /-- `block_remove_fd`, up to the end of `unwatch_fd`. -/
  | remove (k : Nat)
  /-- `block_remove_fd` returns. -/
  | removed (k : Nat)
  /-- A step of `PollMgr` that does not touch a connection. -/
  | poll (a : PollMgrAct)
  /-- The poll thread calls what it reads from `callbacks_`. -/
  | call
  /-- It enters the critical section of `read_cb` or `write_cb`. -/
  | lock
  /-- The `del_callback` of it, up to the end of `unwatch_fd`. -/
  | delete (rdwr : Bool)
  | deleted
  /-- The end of the callback. -/
  | return
deriving DecidableEq

/-- The steps of `PollMgr` inside `wait_loop` and inside the wait of
`block_remove_fd`. -/
def PollsOn : PollMgrAct → Bool
  | .head | .copy | .select _ | .check | .removeWait => true
  | _ => false

def IsWrite : Callback → Bool
  | .read _ => false
  | .write _ => true

namespace Process

/-- A process without connections. -/
def init (pipefd : Nat) : Process where
  mgr := .init pipefd
  objs _ := none
  refs _ := none
  ids := []
  openFds := {pipefd}
  current := none
  conns := []
  collecting := none

def setObj (s : Process) (c : Nat) (o : ConnObj) : Process :=
  { s with objs := Function.update s.objs c (some o) }

def setRef (s : Process) (k : Nat) (r : Ref) : Process :=
  { s with refs := Function.update s.refs k (some r) }

/-- A failed `VERIFY`. -/
def stop (s : Process) : Process := { s with mgr := s.mgr.abort }

/-- A step of `PollMgr`, and what follows unless it stops the process. -/
def manage (s : Process) (a : PollMgrAct) (f : Process → Process) : Option Process :=
  (s.mgr.next a).map fun m =>
    if m.aborted then { s with mgr := m } else f { s with mgr := m }

/-- The owner of reference `k` goes on, with its connection. -/
def withRef (s : Process) (k : Nat) (phase : RefPhase) (f : Nat → ConnObj → Option Process) :
    Option Process :=
  match s.refs k with
  | none => none
  | some r => if r.phase = phase then (s.objs r.conn).bind (f r.conn) else none

/-- A new reference, with the count it leads to. -/
def share (s : Process) (k : Nat) (c : Nat) (o : ConnObj) : Option Process :=
  if k ∉ s.ids then
    some { (s.setObj c { o with refno := o.refno + 1 }).setRef k ⟨c, .held⟩ with ids := k :: s.ids }
  else none

/-- `connection::decref`, and what follows. -/
def giveBack (s : Process) (k : Nat) (c : Nat) (o : ConnObj) (f : Process → Process) :
    Option Process :=
  let s₁ := s.setRef k ⟨c, .dropped⟩
  let o₁ := { o with refno := o.refno - 1 }
  -- VERIFY(refno_>=0)
  if o.refno = 0 then some s.stop
  else if o.refno = 1 then
    -- it takes m_
    if o.locked then none
    else if o.dead then
      some (f { s₁.setObj c { o₁ with deleted := true } with openFds := s.openFds.erase o.fd })
    else some (f (s₁.setObj c o₁))
  else some (f (s₁.setObj c o₁))

/-- The critical section of a callback begins.  Both begin with
`VERIFY(fd_ == s)`, and `write_cb` with `VERIFY(!dead_)`. -/
def lock (s : Process) (c : Nat) (cb : Callback) (o : ConnObj) : Option Process :=
  if o.locked then none
  else if o.fd ≠ cb.fd ∨ IsWrite cb = true ∧ o.dead = true then some s.stop
  else some { s.setObj c { o with locked := true } with current := some (c, .locked) }

/-- The `del_callback` of a callback.  A failed read and a failed write delete
both watches, and a `write_cb` without a PDU its own. -/
def delete (s : Process) (c : Nat) (cb : Callback) (rdwr : Bool) (o : ConnObj) : Option Process :=
  if o.dead = false ∧ (rdwr = true ∨ IsWrite cb = true) then
    s.manage (.delUnwatch o.fd (if rdwr then .rdwr else .wronly)) fun s =>
      { s with current := some (c, .deleting rdwr) }
  else none

/-- One step. -/
def step (s : Process) : ProcessAct → Option Process
  | .new k c fd =>
      if k ∉ s.ids ∧ s.objs c = none ∧ fd ∉ s.openFds then
        some { (s.setObj c ⟨fd, false, 1, false, false, k⟩).setRef k ⟨c, .making⟩ with
          ids := k :: s.ids
          openFds := insert fd s.openFds }
      else none
  | .register k => s.withRef k .making fun c o =>
      s.manage (.addWatch o.fd .rdonly c) fun s => s.setRef k ⟨c, .adding .rdonly⟩
  | .watch k => s.withRef k .held fun c o =>
      if o.dead = false ∧ o.locked = false then
        s.manage (.addWatch o.fd .wronly c) fun s =>
          (s.setObj c { o with locked := true }).setRef k ⟨c, .adding .wronly⟩
      else none
  | .added k =>
      match s.refs k with
      | some ⟨c, .adding .rdonly⟩ => s.manage .addStore fun s => s.setRef k ⟨c, .made⟩
      | some ⟨c, .adding .wronly⟩ => (s.objs c).bind fun o =>
          s.manage .addStore fun s =>
            (s.setObj c { o with locked := false }).setRef k ⟨c, .held⟩
      | _ => none
  | .take k => s.withRef k .made fun c _ => some (s.setRef k ⟨c, .held⟩)
  | .store k => s.withRef k .made fun c o =>
      if s.collecting = none then
        some { s.setRef k ⟨c, .kept⟩ with
          conns := (o.fd, k) :: s.conns.filter fun e => e.1 ≠ o.fd }
      else none
  | .pick fd k => s.withRef k .kept fun _ o =>
      if (fd, k) ∈ s.conns ∧ s.collecting = none ∧ o.dead = true ∧ o.refno = 1 then
        some { s with collecting := some (fd, k) }
      else none
  | .collect =>
      match s.collecting with
      | none => none
      | some (fd, k) => s.withRef k .kept fun c o =>
          s.giveBack k c o fun s =>
            { s with conns := s.conns.filter fun e => e.1 ≠ fd, collecting := none }
  | .release fd k => s.withRef k .kept fun c _ =>
      if (fd, k) ∈ s.conns ∧ s.collecting = none then
        some { s.setRef k ⟨c, .held⟩ with conns := s.conns.filter fun e => e.1 ≠ fd }
      else none
  | .incref k k' => s.withRef k .held fun c o => s.share k' c o
  | .retain k =>
      match s.current, s.mgr.poll with
      | some (c, .locked), .inside (.read _) _ => (s.objs c).bind fun o =>
          if o.dead then none else s.share k c o
      | _, _ => none
  | .decref k => s.withRef k .held fun c o => s.giveBack k c o id
  | .fail k => s.withRef k .held fun c o =>
      if o.dead = false ∧ o.locked = false then
        some ((s.setObj c { o with dead := true }).setRef k ⟨c, .failed⟩)
      else none
  | .remove k => s.withRef k .failed fun c o =>
      s.manage (.removeUnwatch k o.fd) fun s => s.setRef k ⟨c, .removing⟩
  | .removed k => s.withRef k .removing fun c _ =>
      s.manage (.removeReturn k) fun s => s.setRef k ⟨c, .held⟩
  | .poll a => if PollsOn a then s.manage a id else none
  | .call =>
      match s.mgr.poll with
      | .checked cb _ => s.manage .call fun s =>
          { s with current := (s.mgr.callbacks cb.fd).map fun c => (c, .entered) }
      | _ => none
  | .lock =>
      match s.current, s.mgr.poll with
      | some (c, .entered), .inside cb _ => (s.objs c).bind (s.lock c cb)
      | _, _ => none
  | .delete rdwr =>
      match s.current, s.mgr.poll with
      | some (c, .locked), .inside cb _ => (s.objs c).bind (s.delete c cb rdwr)
      | _, _ => none
  | .deleted =>
      match s.current with
      | some (c, .deleting rdwr) => (s.objs c).bind fun o =>
          s.manage .delStore fun s =>
            { s.setObj c { o with dead := rdwr || o.dead } with current := some (c, .finished) }
      | _ => none
  | .return =>
      match s.current with
      | some (c, .locked) | some (c, .finished) => (s.objs c).bind fun o =>
          s.manage .callReturn fun s =>
            { s.setObj c { o with locked := false } with current := none }
      | _ => none

def next (s : Process) (a : ProcessAct) : Option Process :=
  if s.mgr.aborted then none else s.step a

end Process

/-- A process, from its start on. -/
def processMachine (pipefd : Nat) : Machine Process ProcessAct where
  init := .init pipefd
  next := Process.next

/-! ## What a step can do -/

namespace Process

/-- A new connection, and the reference that comes with it. -/
def created (s : Process) (k c fd : Nat) : Process :=
  { (s.setObj c ⟨fd, false, 1, false, false, k⟩).setRef k ⟨c, .making⟩ with
    ids := k :: s.ids
    openFds := insert fd s.openFds }

/-- One more reference. -/
def shared (s : Process) (k c : Nat) (o : ConnObj) : Process :=
  { (s.setObj c { o with refno := o.refno + 1 }).setRef k ⟨c, .held⟩ with ids := k :: s.ids }

/-- After a step of `PollMgr`. -/
def withMgr (s : Process) (m : PollMgr) : Process := { s with mgr := m }

/-- The poll thread is in a callback of `p.1`. -/
def withCurrent (s : Process) (p : Option (Nat × CbPhase)) : Process := { s with current := p }

/-- The entries of `conns_` change. -/
def withConns (s : Process) (l : List (Nat × Nat)) (p : Option (Nat × Nat)) : Process :=
  { s with conns := l, collecting := p }

/-- `conns_` without an entry for `fd`. -/
def others (s : Process) (fd : Nat) : List (Nat × Nat) := s.conns.filter fun e => e.1 ≠ fd

/-- How a reference is given back. -/
inductive GiveBack (s : Process) (k c : Nat) (o : ConnObj) : Process → Prop where
  | keep : o.refno ≠ 0 → (o.refno = 1 → o.dead = false) → GiveBack s k c o
      ((s.setRef k ⟨c, .dropped⟩).setObj c { o with refno := o.refno - 1 })
  | delete : o.refno = 1 → o.locked = false → o.dead = true → GiveBack s k c o
      { (s.setRef k ⟨c, .dropped⟩).setObj c { o with refno := o.refno - 1, deleted := true } with
        openFds := s.openFds.erase o.fd }

/-- The steps that stop the process. -/
inductive Stops (s : Process) : ProcessAct → Prop where
  /-- `VERIFY(fd < MAX_POLL_FDS)` -/
  | full {k c : Nat} {p : RefPhase} {o : ConnObj} {a : ProcessAct} :
      a = .register k ∨ a = .watch k → s.refs k = some ⟨c, p⟩ → s.objs c = some o →
      ¬ o.fd < maxPollFds → Stops s a
  /-- `VERIFY(!callbacks_[fd] || callbacks_[fd]==ch)` -/
  | taken {k c : Nat} {flag : PollFlag} : s.refs k = some ⟨c, .adding flag⟩ →
      s.mgr.Fails .addStore → Stops s (.added k)
  | select {r : SelectResult} : r = .failed ∨ s.mgr.aio.piped = 0 →
      Stops s (.poll (.select r))
  | null : s.mgr.Fails .call → Stops s .call
  /-- `VERIFY(refno_>=0)` -/
  | refno {k c : Nat} {p : RefPhase} {o : ConnObj} {a : ProcessAct} :
      s.refs k = some ⟨c, p⟩ → p ≠ .dropped → s.objs c = some o → o.refno = 0 → Stops s a
  /-- `VERIFY(fd_ == s)` -/
  | wrongFd {c : Nat} {o : ConnObj} {cb : Callback} {due : List Callback} :
      s.current = some (c, .entered) → s.mgr.poll = .inside cb due → s.objs c = some o →
      o.fd ≠ cb.fd → Stops s .lock
  /-- `VERIFY(!dead_)` -/
  | deadWrite {c : Nat} {o : ConnObj} {cb : Callback} {due : List Callback} :
      s.current = some (c, .entered) → s.mgr.poll = .inside cb due → s.objs c = some o →
      IsWrite cb = true → o.dead = true → Stops s .lock

/-- The steps. -/
inductive Step (s : Process) : ProcessAct → Process → Prop where
  | stop {a : ProcessAct} : s.Stops a → Step s a s.stop
  | new {k c fd : Nat} : k ∉ s.ids → s.objs c = none → fd ∉ s.openFds →
      Step s (.new k c fd) (s.created k c fd)
  | register {k c : Nat} {o : ConnObj} {m : PollMgr} : s.refs k = some ⟨c, .making⟩ →
      s.objs c = some o → s.mgr.Exec (.addWatch o.fd .rdonly c) m →
      Step s (.register k) ((s.withMgr m).setRef k ⟨c, .adding .rdonly⟩)
  | watch {k c : Nat} {o : ConnObj} {m : PollMgr} : s.refs k = some ⟨c, .held⟩ →
      s.objs c = some o → o.dead = false → o.locked = false →
      s.mgr.Exec (.addWatch o.fd .wronly c) m →
      Step s (.watch k)
        (((s.withMgr m).setObj c { o with locked := true }).setRef k ⟨c, .adding .wronly⟩)
  | made {k c : Nat} {m : PollMgr} : s.refs k = some ⟨c, .adding .rdonly⟩ →
      s.mgr.Exec .addStore m → Step s (.added k) ((s.withMgr m).setRef k ⟨c, .made⟩)
  | watched {k c : Nat} {o : ConnObj} {m : PollMgr} : s.refs k = some ⟨c, .adding .wronly⟩ →
      s.objs c = some o → s.mgr.Exec .addStore m →
      Step s (.added k)
        (((s.withMgr m).setObj c { o with locked := false }).setRef k ⟨c, .held⟩)
  | take {k c : Nat} : s.refs k = some ⟨c, .made⟩ → Step s (.take k) (s.setRef k ⟨c, .held⟩)
  | store {k c : Nat} {o : ConnObj} : s.refs k = some ⟨c, .made⟩ → s.objs c = some o →
      s.collecting = none →
      Step s (.store k)
        ((s.setRef k ⟨c, .kept⟩).withConns ((o.fd, k) :: s.others o.fd) s.collecting)
  | pick {fd k c : Nat} {o : ConnObj} : s.refs k = some ⟨c, .kept⟩ → (fd, k) ∈ s.conns →
      s.objs c = some o → o.dead = true → o.refno = 1 →
      Step s (.pick fd k) (s.withConns s.conns (some (fd, k)))
  | collect {fd k c : Nat} {o : ConnObj} {s₁ : Process} : s.collecting = some (fd, k) →
      s.refs k = some ⟨c, .kept⟩ → s.objs c = some o → s.GiveBack k c o s₁ →
      Step s .collect (s₁.withConns (s₁.others fd) none)
  | release {fd k c : Nat} : s.refs k = some ⟨c, .kept⟩ → (fd, k) ∈ s.conns →
      s.collecting = none →
      Step s (.release fd k)
        ((s.setRef k ⟨c, .held⟩).withConns (s.others fd) s.collecting)
  | incref {k k' c : Nat} {o : ConnObj} : s.refs k = some ⟨c, .held⟩ → s.objs c = some o →
      k' ∉ s.ids → Step s (.incref k k') (s.shared k' c o)
  | retain {k c fd : Nat} {o : ConnObj} {due : List Callback} :
      s.current = some (c, .locked) → s.mgr.poll = .inside (.read fd) due →
      s.objs c = some o → o.dead = false → k ∉ s.ids → Step s (.retain k) (s.shared k c o)
  | decref {k c : Nat} {o : ConnObj} {s' : Process} : s.refs k = some ⟨c, .held⟩ →
      s.objs c = some o → s.GiveBack k c o s' → Step s (.decref k) s'
  | fail {k c : Nat} {o : ConnObj} : s.refs k = some ⟨c, .held⟩ → s.objs c = some o →
      o.dead = false → o.locked = false →
      Step s (.fail k) ((s.setObj c { o with dead := true }).setRef k ⟨c, .failed⟩)
  | remove {k c : Nat} {o : ConnObj} {m : PollMgr} : s.refs k = some ⟨c, .failed⟩ →
      s.objs c = some o → s.mgr.Exec (.removeUnwatch k o.fd) m →
      Step s (.remove k) ((s.withMgr m).setRef k ⟨c, .removing⟩)
  | removed {k c : Nat} {m : PollMgr} : s.refs k = some ⟨c, .removing⟩ →
      s.mgr.Exec (.removeReturn k) m → Step s (.removed k) ((s.withMgr m).setRef k ⟨c, .held⟩)
  | poll {a : PollMgrAct} {m : PollMgr} : PollsOn a = true → s.mgr.Exec a m →
      Step s (.poll a) (s.withMgr m)
  | call {cb : Callback} {due : List Callback} {m : PollMgr} : s.mgr.poll = .checked cb due →
      s.mgr.Exec .call m →
      Step s .call
        ((s.withMgr m).withCurrent ((s.mgr.callbacks cb.fd).map fun c => (c, .entered)))
  | lock {c : Nat} {o : ConnObj} : s.current = some (c, .entered) → s.objs c = some o →
      o.locked = false →
      Step s .lock ((s.setObj c { o with locked := true }).withCurrent (some (c, .locked)))
  | delete {c : Nat} {o : ConnObj} {rdwr : Bool} {m : PollMgr} : s.current = some (c, .locked) →
      s.objs c = some o → o.dead = false →
      s.mgr.Exec (.delUnwatch o.fd (if rdwr then .rdwr else .wronly)) m →
      Step s (.delete rdwr) ((s.withMgr m).withCurrent (some (c, .deleting rdwr)))
  | deleted {c : Nat} {o : ConnObj} {rdwr : Bool} {m : PollMgr} :
      s.current = some (c, .deleting rdwr) → s.objs c = some o → s.mgr.Exec .delStore m →
      Step s .deleted (((s.withMgr m).setObj c { o with dead := rdwr || o.dead }).withCurrent
        (some (c, .finished)))
  | return {c : Nat} {ph : CbPhase} {o : ConnObj} {m : PollMgr} : s.current = some (c, ph) →
      ph = .locked ∨ ph = .finished → s.objs c = some o → s.mgr.Exec .callReturn m →
      Step s .return (((s.withMgr m).setObj c { o with locked := false }).withCurrent none)

variable {s s' : Process} {a : ProcessAct} {k c : Nat} {o : ConnObj}

theorem withRef_inv {ph : RefPhase} {f : Nat → ConnObj → Option Process}
    (h : s.withRef k ph f = some s') :
    ∃ c o, s.refs k = some ⟨c, ph⟩ ∧ s.objs c = some o ∧ f c o = some s' := by
  unfold withRef at h
  cases hr : s.refs k with
  | none => simp [hr] at h
  | some r =>
      simp only [hr] at h
      split at h
      · next hph =>
          obtain ⟨o, ho, hf⟩ := Option.bind_eq_some_iff.mp h
          exact ⟨r.conn, o, by rw [← hph], ho, hf⟩
      · cases h

/-- A step of `PollMgr` is made or stops the process. -/
theorem manage_inv {a : PollMgrAct} {f : Process → Process} (h : s.manage a f = some s') :
    (∃ m, s.mgr.Exec a m ∧ s' = f (s.withMgr m)) ∨ s.mgr.Fails a ∧ s' = s.stop := by
  obtain ⟨m, hm, rfl⟩ := Option.map_eq_some_iff.mp h
  have hlive : s.mgr.aborted = false := by
    unfold PollMgr.next at hm
    split at hm
    · cases hm
    · next hab => simpa using hab
  rcases PollMgr.next_exec hm with hx | ⟨hf, rfl⟩
  · rw [PollMgr.aborted_exec hx, hlive]
    exact .inl ⟨m, hx, rfl⟩
  · exact .inr ⟨hf, rfl⟩

theorem giveBack_inv {f : Process → Process} (h : s.giveBack k c o f = some s') :
    (∃ s₁, s.GiveBack k c o s₁ ∧ s' = f s₁) ∨ o.refno = 0 ∧ s' = s.stop := by
  unfold giveBack at h
  split at h
  · next h0 =>
      cases h
      exact .inr ⟨h0, rfl⟩
  next h0 =>
  split at h
  · next h1 =>
      split at h
      · cases h
      next hl =>
      split at h
      · next hd =>
          cases h
          exact .inl ⟨_, .delete h1 (by simpa using hl) hd, rfl⟩
      · next hd =>
          cases h
          exact .inl ⟨_, .keep h0 fun _ => by simpa using hd, rfl⟩
  · next h1 =>
      cases h
      exact .inl ⟨_, .keep h0 fun he => absurd he h1, rfl⟩

theorem share_inv (h : s.share k c o = some s') : k ∉ s.ids ∧ s' = s.shared k c o := by
  unfold share at h
  split at h
  · next hk =>
      cases h
      exact ⟨hk, rfl⟩
  · cases h

theorem step_inv (h : s.step a = some s') : s.Step a s' := by
  cases a with
  | new k c fd =>
      simp only [step] at h
      split at h
      · next hc =>
          cases h
          exact .new hc.1 hc.2.1 hc.2.2
      · cases h
  | register k =>
      simp only [step] at h
      obtain ⟨c, o, hk, ho, h⟩ := withRef_inv h
      rcases manage_inv h with ⟨m, hm, rfl⟩ | ⟨hf, rfl⟩
      · exact .register hk ho hm
      · cases hf with
        | full hfd => exact .stop (.full (.inl rfl) hk ho hfd)
  | watch k =>
      simp only [step] at h
      obtain ⟨c, o, hk, ho, h⟩ := withRef_inv h
      split at h
      · next hc =>
          rcases manage_inv h with ⟨m, hm, rfl⟩ | ⟨hf, rfl⟩
          · exact .watch hk ho hc.1 hc.2 hm
          · cases hf with
            | full hfd => exact .stop (.full (.inr rfl) hk ho hfd)
      · cases h
  | added k =>
      simp only [step] at h
      split at h
      · next c hk =>
          rcases manage_inv h with ⟨m, hm, rfl⟩ | ⟨hf, rfl⟩
          · exact .made hk hm
          · exact .stop (.taken hk hf)
      · next c hk =>
          obtain ⟨o, ho, h⟩ := Option.bind_eq_some_iff.mp h
          rcases manage_inv h with ⟨m, hm, rfl⟩ | ⟨hf, rfl⟩
          · exact .watched hk ho hm
          · exact .stop (.taken hk hf)
      · cases h
  | take k =>
      simp only [step] at h
      obtain ⟨c, o, hk, ho, h⟩ := withRef_inv h
      cases h
      exact .take hk
  | store k =>
      simp only [step] at h
      obtain ⟨c, o, hk, ho, h⟩ := withRef_inv h
      split at h
      · next hc =>
          cases h
          exact .store hk ho hc
      · cases h
  | pick fd k =>
      simp only [step] at h
      obtain ⟨c, o, hk, ho, h⟩ := withRef_inv h
      split at h
      · next hc =>
          cases h
          exact .pick hk hc.1 ho hc.2.2.1 hc.2.2.2
      · cases h
  | collect =>
      simp only [step] at h
      split at h
      · cases h
      · next fd k hc =>
          obtain ⟨c, o, hk, ho, h⟩ := withRef_inv h
          rcases giveBack_inv h with ⟨s₁, hg, rfl⟩ | ⟨h0, rfl⟩
          · exact .collect hc hk ho hg
          · exact .stop (.refno hk nofun ho h0)
  | release fd k =>
      simp only [step] at h
      obtain ⟨c, o, hk, ho, h⟩ := withRef_inv h
      split at h
      · next hc =>
          cases h
          exact .release hk hc.1 hc.2
      · cases h
  | incref k k' =>
      simp only [step] at h
      obtain ⟨c, o, hk, ho, h⟩ := withRef_inv h
      obtain ⟨hk', rfl⟩ := share_inv h
      exact .incref hk ho hk'
  | retain k =>
      simp only [step] at h
      split at h
      · next c fd due hc hp =>
          obtain ⟨o, ho, h⟩ := Option.bind_eq_some_iff.mp h
          split at h
          · cases h
          · next hd =>
              obtain ⟨hk', rfl⟩ := share_inv h
              exact .retain hc hp ho (by simpa using hd) hk'
      · cases h
  | decref k =>
      simp only [step] at h
      obtain ⟨c, o, hk, ho, h⟩ := withRef_inv h
      rcases giveBack_inv h with ⟨s₁, hg, rfl⟩ | ⟨h0, rfl⟩
      · exact .decref hk ho hg
      · exact .stop (.refno hk nofun ho h0)
  | fail k =>
      simp only [step] at h
      obtain ⟨c, o, hk, ho, h⟩ := withRef_inv h
      split at h
      · next hc =>
          cases h
          exact .fail hk ho hc.1 hc.2
      · cases h
  | remove k =>
      simp only [step] at h
      obtain ⟨c, o, hk, ho, h⟩ := withRef_inv h
      rcases manage_inv h with ⟨m, hm, rfl⟩ | ⟨hf, rfl⟩
      · exact .remove hk ho hm
      · cases hf
  | removed k =>
      simp only [step] at h
      obtain ⟨c, o, hk, ho, h⟩ := withRef_inv h
      rcases manage_inv h with ⟨m, hm, rfl⟩ | ⟨hf, rfl⟩
      · exact .removed hk hm
      · cases hf
  | poll a =>
      simp only [step] at h
      split at h
      · next ha =>
          rcases manage_inv h with ⟨m, hm, rfl⟩ | ⟨hf, rfl⟩
          · exact .poll ha hm
          · cases hf with
            | select hr => exact .stop (.select hr)
            | full | taken _ _ _ | flag _ | null _ _ => cases ha
      · cases h
  | call =>
      simp only [step] at h
      split at h
      · next cb due hp =>
          rcases manage_inv h with ⟨m, hm, rfl⟩ | ⟨hf, rfl⟩
          · cases hm with
            | call hp' => exact .call hp (.call hp')
            | loop ha _ _ _ => cases ha
          · exact .stop (.null hf)
      · cases h
  | lock =>
      simp only [step] at h
      split at h
      · next c cb due hc hp =>
          obtain ⟨o, ho, h⟩ := Option.bind_eq_some_iff.mp h
          unfold lock at h
          split at h
          · cases h
          next hl =>
          split at h
          · next hbad =>
              cases h
              rcases hbad with hfd | ⟨hw, hd⟩
              · exact .stop (.wrongFd hc hp ho hfd)
              · exact .stop (.deadWrite hc hp ho hw hd)
          · cases h
            exact .lock hc ho (by simpa using hl)
      · cases h
  | delete rdwr =>
      simp only [step] at h
      split at h
      · next c cb due hc hp =>
          obtain ⟨o, ho, h⟩ := Option.bind_eq_some_iff.mp h
          unfold delete at h
          split at h
          · next hd =>
              rcases manage_inv h with ⟨m, hm, rfl⟩ | ⟨hf, rfl⟩
              · exact .delete hc ho hd.1 hm
              · cases rdwr <;> cases hf with
                | flag hu => cases hu
          · cases h
      · cases h
  | deleted =>
      simp only [step] at h
      split at h
      · next c rdwr hc =>
          obtain ⟨o, ho, h⟩ := Option.bind_eq_some_iff.mp h
          rcases manage_inv h with ⟨m, hm, rfl⟩ | ⟨hf, rfl⟩
          · exact .deleted hc ho hm
          · cases hf
      · cases h
  | «return» =>
      simp only [step] at h
      split at h
      · next c hc =>
          obtain ⟨o, ho, h⟩ := Option.bind_eq_some_iff.mp h
          rcases manage_inv h with ⟨m, hm, rfl⟩ | ⟨hf, rfl⟩
          · exact .return hc (.inl rfl) ho hm
          · cases hf
      · next c hc =>
          obtain ⟨o, ho, h⟩ := Option.bind_eq_some_iff.mp h
          rcases manage_inv h with ⟨m, hm, rfl⟩ | ⟨hf, rfl⟩
          · exact .return hc (.inr rfl) ho hm
          · cases hf
      · cases h

end Process

end RpcLock.Connection
