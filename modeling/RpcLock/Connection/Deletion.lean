import RpcLock.Connection.Process

/-!
# Connections and their descriptors

Nothing that can still be used is deleted.  A reference is counted.  The poll thread
and `callbacks_` are not, and what keeps them away from a connection that is deleted
is how it died: the poll thread has taken it out of its tables itself and holds `m_`
until it is out of the callback, or the owner of a reference is in
`block_remove_fd`, or has been.

`Ok` says what holds for a reference in each of its phases, `AtCallback` the same for
the poll thread, and `ConnOk` puts them together for a connection that is not
deleted.  A step changes one connection, and the others do not notice (`ConnOk.away`).
-/

namespace RpcLock.Connection

/-- The reference counts for `c`. -/
def Ref.holds (c : Nat) (r : Ref) : Bool := decide (r.conn = c ∧ r.phase ≠ .dropped)

/-- In an `add_callback`, or before the one of the constructor. -/
def RefPhase.Busy : RefPhase → Prop
  | .making | .adding _ => True
  | _ => False

namespace Process

/-- A connection that is not deleted. -/
def Live (s : Process) (c : Nat) (o : ConnObj) : Prop := s.objs c = some o ∧ o.deleted = false

/-- The number of references. -/
def count (s : Process) (c : Nat) : Nat := tableCount s.refs s.ids (Ref.holds c)

/-- `PollMgr` does not know the connection. -/
structure Young (s : Process) (k c : Nat) (o : ConnObj) : Prop where
  dead : o.dead = false
  maker : o.maker = k
  callback : s.mgr.callbacks o.fd ≠ some c
  away : ∀ ph, s.current ≠ some (c, ph)
  only : ∀ k' r, s.refs k' = some r → r.conn = c → k' = k

/-- What holds for a reference in a phase. -/
def Ok (s : Process) (k c : Nat) (o : ConnObj) : RefPhase → Prop
  | .making => s.Young k c o
  | .adding .rdonly => s.Young k c o ∧ s.mgr.mutex = some (.add o.fd c)
  | .adding _ => s.mgr.mutex = some (.add o.fd c) ∧ o.dead = false ∧ o.locked = true ∧
      ∀ ph, s.current = some (c, ph) → ph = .entered
  | .made | .kept => o.maker = k
  | .failed => o.dead = true
  | .removing => o.dead = true ∧ s.mgr.Retiring k o.fd
  | .held | .dropped => True

/-- What holds while the poll thread is in a callback. -/
def AtCallback (s : Process) (o : ConnObj) : CbPhase → Prop
  | .entered => True
  | .locked | .finished => o.locked = true
  | .deleting rdwr => o.locked = true ∧ o.dead = false ∧ ∃ gone,
      s.mgr.mutex = some (.del o.fd gone) ∧
        (rdwr = true → gone = true ∧ ¬ s.mgr.aio.Watched o.fd)

/-- What holds for a connection that is not deleted. -/
structure ConnOk (s : Process) (c : Nat) (o : ConnObj) : Prop where
  refs : ∀ k r, s.refs k = some r → r.conn = c → r.phase ≠ .dropped → s.Ok k c o r.phase
  one : ∀ k k' f f', s.refs k = some ⟨c, .adding f⟩ → s.refs k' = some ⟨c, .adding f'⟩ → k = k'
  refno : o.refno = s.count c
  current : ∀ ph, s.current = some (c, ph) →
    (∃ cb due, s.mgr.poll = .inside cb due ∧ cb.fd = o.fd) ∧ s.AtCallback o ph
  /-- Who keeps the poll thread away from it. -/
  death : o.dead = true →
    (∃ k, s.refs k = some ⟨c, .failed⟩ ∨ s.refs k = some ⟨c, .removing⟩) ∨
    s.mgr.Clear c o.fd ∧ ∀ ph, s.current = some (c, ph) → ph = .finished

/-! ## The other connections -/

/-- What `PollMgr` keeps of a connection. -/
structure Still (s : Process) (m : PollMgr) (c : Nat) (o : ConnObj) : Prop where
  callback : m.callbacks o.fd = some c → s.mgr.callbacks o.fd = some c
  add : s.mgr.mutex = some (.add o.fd c) → m.mutex = some (.add o.fd c)
  del : ∀ gone, s.mgr.mutex = some (.del o.fd gone) → m.mutex = some (.del o.fd gone)
  unwatched : ¬ s.mgr.aio.Watched o.fd → ¬ m.aio.Watched o.fd
  retiring : ∀ k, s.refs k = some ⟨c, .removing⟩ → s.mgr.Retiring k o.fd → m.Retiring k o.fd
  clear : s.mgr.Clear c o.fd → m.Clear c o.fd
  poll : ∀ ph cb due, s.current = some (c, ph) → s.mgr.poll = .inside cb due →
    m.poll = .inside cb due

variable {s s' : Process} {c k : Nat} {o o' : ConnObj} {m : PollMgr} {a : PollMgrAct}

theorem still_refl (s : Process) (c : Nat) (o : ConnObj) : s.Still s.mgr c o where
  callback := id
  add := id
  del _ := id
  unwatched := id
  retiring _ _ := id
  clear := id
  poll _ _ _ _ := id

/-- The step of `PollMgr` is not on behalf of `c`. -/
structure Foreign (s : Process) (a : PollMgrAct) (c : Nat) (o : ConnObj) : Prop where
  add : ∀ flag ch, a ≠ .addWatch o.fd flag ch
  store : a = .addStore → s.mgr.mutex ≠ some (.add o.fd c)
  del : a = .delStore → ∀ gone, s.mgr.mutex ≠ some (.del o.fd gone)
  remove : ∀ k, s.refs k = some ⟨c, .removing⟩ → a ≠ .removeReturn k
  leave : a = .callReturn → ∀ ph, s.current ≠ some (c, ph)

theorem foreign_addWatch {fd c' : Nat} {flag : PollFlag} (hne : o.fd ≠ fd) :
    s.Foreign (.addWatch fd flag c') c o where
  add _ _ he := hne (PollMgrAct.addWatch.inj he).1.symm
  store := nofun
  del := nofun
  remove := nofun
  leave := nofun

theorem foreign_addStore {fd c' : Nat} (hm : s.mgr.mutex = some (.add fd c')) (hc : c ≠ c') :
    s.Foreign .addStore c o where
  add := nofun
  store _ he := hc (Section.add.inj (Option.some.inj (hm.symm.trans he))).2.symm
  del := nofun
  remove := nofun
  leave := nofun

theorem Foreign.still (hf : s.Foreign a c o) (h : s.mgr.Exec a m) (hr : s.mgr.Removing) :
    s.Still m c o where
  callback hc := by
    rcases PollMgr.callbacks_exec h hc with hc | ⟨ha, hm⟩
    · exact hc
    · exact absurd hm (hf.store ha)
  add hm := by
    rcases PollMgr.mutex_exec h hm with hm' | ⟨_, _, he, ha⟩ | ⟨_, _, he, -⟩ | ⟨_, _, he, -⟩
    · exact hm'
    · exact absurd hm (hf.store ha)
    · cases he
    · cases he
  del gone hm := by
    rcases PollMgr.mutex_exec h hm with hm' | ⟨_, _, he, -⟩ | ⟨_, _, he, ha⟩ | ⟨_, _, he, -⟩
    · exact hm'
    · cases he
    · exact absurd hm (hf.del ha gone)
    · cases he
  unwatched hw hw' := by
    rcases PollMgr.watched_exec h hw' with hw' | ⟨flag, ch, ha⟩
    · exact hw hw'
    · exact hf.add flag ch ha
  retiring k hk hret := hret.exec h hr hf.add (hf.remove k hk)
  clear hc := hc.exec h hf.add hf.store
  poll ph cb due hc hp := by
    rcases PollMgr.stays_exec h hp with hp' | ha
    · exact hp'
    · exact absurd hc (hf.leave ha ph)

/-- The poll thread is where it was with `c`, or it enters a callback of it. -/
def Enters (s s' : Process) (c : Nat) (o : ConnObj) : Prop :=
  ∀ ph, s'.current = some (c, ph) → s.current = some (c, ph) ∨
    ph = .entered ∧ s.mgr.callbacks o.fd = some c ∧
      ∃ cb due, s'.mgr.poll = .inside cb due ∧ cb.fd = o.fd

theorem Young.unnoticed (h : s.Young k c o) (hst : s.Still s'.mgr c o) (hcur : s.Enters s' c o)
    (hrefs : ∀ k r, r.conn = c → (s'.refs k = some r ↔ s.refs k = some r)) : s'.Young k c o where
  dead := h.dead
  maker := h.maker
  callback hc := h.callback (hst.callback hc)
  away ph hc := by
    rcases hcur ph hc with hc | ⟨-, hcb, -⟩
    · exact h.away ph hc
    · exact h.callback hcb
  only k' r hr hc := h.only k' r ((hrefs k' r hc).mp hr) hc

theorem Ok.away {p : RefPhase} (h : s.Ok k c o p) (hk : s.refs k = some ⟨c, p⟩)
    (hst : s.Still s'.mgr c o) (hcur : s.Enters s' c o)
    (hrefs : ∀ k r, r.conn = c → (s'.refs k = some r ↔ s.refs k = some r)) : s'.Ok k c o p := by
  have hwrite : (s.mgr.mutex = some (.add o.fd c) ∧ o.dead = false ∧ o.locked = true ∧
      ∀ ph, s.current = some (c, ph) → ph = .entered) →
      s'.mgr.mutex = some (.add o.fd c) ∧ o.dead = false ∧ o.locked = true ∧
      ∀ ph, s'.current = some (c, ph) → ph = .entered := by
    rintro ⟨hm, hd, hl, hen⟩
    refine ⟨hst.add hm, hd, hl, fun ph hph => ?_⟩
    rcases hcur ph hph with hph | ⟨rfl, -⟩
    · exact hen ph hph
    · rfl
  cases p with
  | making => exact Young.unnoticed h hst hcur hrefs
  | adding f =>
      cases f with
      | rdonly => exact ⟨Young.unnoticed h.1 hst hcur hrefs, hst.add h.2⟩
      | none | wronly | rdwr | mask => exact hwrite h
  | made | held | kept | failed | dropped => exact h
  | removing => exact ⟨h.1, hst.retiring k hk h.2⟩

theorem AtCallback.still {ph : CbPhase} (h : s.AtCallback o ph) (hst : s.Still s'.mgr c o) :
    s'.AtCallback o ph := by
  cases ph with
  | entered | locked | finished => exact h
  | deleting rdwr =>
      obtain ⟨hl, hd, gone, hm, hw⟩ := h
      exact ⟨hl, hd, gone, hst.del gone hm, fun hr => ⟨(hw hr).1, hst.unwatched (hw hr).2⟩⟩

/-- A step that changes another connection, or none. -/
theorem ConnOk.away (h : s.ConnOk c o) (hst : s.Still s'.mgr c o) (hcur : s.Enters s' c o)
    (hrefs : ∀ k r, r.conn = c → (s'.refs k = some r ↔ s.refs k = some r))
    (hcount : s'.count c = s.count c) : s'.ConnOk c o where
  refs k r hk hc hp := by
    have hk' := (hrefs k r hc).mp hk
    subst hc
    exact (h.refs k r hk' rfl hp).away hk' hst hcur hrefs
  one k k' f f' hk hk' := h.one k k' f f' ((hrefs _ _ rfl).mp hk) ((hrefs _ _ rfl).mp hk')
  refno := h.refno.trans hcount.symm
  current ph hph := by
    rcases hcur ph hph with hph | ⟨rfl, -, hp⟩
    · obtain ⟨⟨cb, due, hp, hfd⟩, hat⟩ := h.current ph hph
      exact ⟨⟨cb, due, hst.poll ph cb due hph hp, hfd⟩, hat.still hst⟩
    · exact ⟨hp, trivial⟩
  death hd := by
    rcases h.death hd with ⟨k, hk⟩ | ⟨hclear, hfin⟩
    · exact .inl ⟨k, hk.imp (hrefs _ _ rfl).mpr (hrefs _ _ rfl).mpr⟩
    · refine .inr ⟨hst.clear hclear, fun ph hph => ?_⟩
      rcases hcur ph hph with hph | ⟨-, hcb, -⟩
      · exact hfin ph hph
      · exact absurd hcb hclear.callback

/-! ## The connection of a step -/

/-- The constructor has not returned. -/
def Early (p : RefPhase) : Prop := p = .making ∨ p = .adding .rdonly

theorem ConnOk.young (h : s.ConnOk c o) {r : Ref} (hk : s.refs k = some r) (hc : r.conn = c)
    (he : Early r.phase) : s.Young k c o := by
  have hok := h.refs k r hk hc
  rcases he with he | he <;> rw [he] at hok
  · exact hok nofun
  · exact (hok nofun).1

/-- One reference that is past the constructor, and all are. -/
theorem ConnOk.late (h : s.ConnOk c o) {p : RefPhase} (hk : s.refs k = some ⟨c, p⟩)
    (hp : ¬ Early p) (k' : Nat) (r : Ref) (hk' : s.refs k' = some r) (hc : r.conn = c) :
    ¬ Early r.phase := by
  intro he
  obtain rfl := (h.young hk' hc he).only k _ hk rfl
  cases hk.symm.trans hk'
  exact hp he

theorem ConnOk.late_of_current (h : s.ConnOk c o) {ph : CbPhase}
    (hcur : s.current = some (c, ph)) (k' : Nat) (r : Ref) (hk' : s.refs k' = some r)
    (hc : r.conn = c) : ¬ Early r.phase := fun he => (h.young hk' hc he).away ph hcur

/-- A busy reference past the constructor has `m_` and the mutex of `PollMgr`. -/
theorem ConnOk.busy (h : s.ConnOk c o) {r : Ref} (hk : s.refs k = some r) (hc : r.conn = c)
    (he : ¬ Early r.phase) (hb : r.phase.Busy) :
    s.mgr.mutex = some (.add o.fd c) ∧ o.dead = false ∧ o.locked = true ∧
      ∀ ph, s.current = some (c, ph) → ph = .entered := by
  obtain ⟨d, p⟩ := r
  have hok := h.refs k _ hk hc
  cases p with
  | making => exact absurd (.inl rfl) he
  | adding f =>
      cases f with
      | rdonly => exact absurd (.inr rfl) he
      | none | wronly | rdwr | mask => exact hok nofun
  | _ => exact hb.elim

/-- Beside a reference that is past the constructor nobody is busy, unless it has a
mutex. -/
theorem ConnOk.not_busy (h : s.ConnOk c o) {p : RefPhase} (hk : s.refs k = some ⟨c, p⟩)
    (hp : p ≠ .making ∧ p ≠ .adding .rdonly) (hfree : s.mgr.mutex = none ∨ o.locked = false)
    {k' : Nat} {r : Ref} (hk' : s.refs k' = some r) (hc : r.conn = c) : ¬ r.phase.Busy := by
  intro hb
  have hlate := h.late hk (fun he => he.elim hp.1 hp.2) k' r hk' hc
  obtain ⟨hm, -, hl, -⟩ := h.busy hk' hc hlate hb
  rcases hfree with hf | hf
  · cases hf.symm.trans hm
  · cases hf.symm.trans hl

/-- The same beside the poll thread. -/
theorem ConnOk.not_busy_of_current (h : s.ConnOk c o) {ph : CbPhase}
    (hcur : s.current = some (c, ph)) (hfree : ph ≠ .entered ∨ o.locked = false)
    {k' : Nat} {r : Ref} (hk' : s.refs k' = some r) (hc : r.conn = c) : ¬ r.phase.Busy := by
  intro hb
  obtain ⟨-, -, hl, hen⟩ := h.busy hk' hc (h.late_of_current hcur k' r hk' hc) hb
  rcases hfree with hf | hf
  · exact hf (hen ph hcur)
  · cases hf.symm.trans hl

/-- References that are not of the step. -/
theorem ConnOk.rest (h : s.ConnOk c o) {r : Ref} (hk : s.refs k = some r) (hc : r.conn = c)
    (hp : r.phase ≠ .dropped) (hmk : o'.maker = o.maker) (hfd : o'.fd = o.fd)
    (hd : o.dead = true → o'.dead = true) (hb : r.phase.Busy → s'.Ok k c o' r.phase)
    (hret : s.refs k = some ⟨c, .removing⟩ → s.mgr.Retiring k o.fd → s'.mgr.Retiring k o.fd) :
    s'.Ok k c o' r.phase := by
  have hok := h.refs k r hk hc hp
  obtain ⟨d, p⟩ := r
  cases hc
  cases p with
  | making | adding f => exact hb trivial
  | made | kept => exact hmk.trans hok
  | held | dropped => exact trivial
  | failed => exact hd hok
  | removing =>
      refine ⟨hd hok.1, ?_⟩
      rw [hfd]
      exact hret hk hok.2

theorem setRef_refs_self (s : Process) (k : Nat) (r : Ref) : (s.setRef k r).refs k = some r :=
  Function.update_self ..

theorem setRef_refs_ne (s : Process) (r : Ref) {k k' : Nat} (h : k' ≠ k) :
    (s.setRef k r).refs k' = s.refs k' := Function.update_of_ne h ..

theorem setRef_refs_cases {r x : Ref} {k' : Nat} (h : (s.setRef k r).refs k' = some x) :
    (k' = k ∧ x = r) ∨ (k' ≠ k ∧ s.refs k' = some x) := by
  by_cases hk : k' = k
  · subst hk
    rw [setRef_refs_self] at h
    exact .inl ⟨rfl, (Option.some.inj h).symm⟩
  · rw [setRef_refs_ne _ _ hk] at h
    exact .inr ⟨hk, h⟩

/-- A reference changes its phase. -/
theorem count_setRef (hn : s.ids.Nodup) (hid : k ∈ s.ids) {p q : RefPhase}
    (hk : s.refs k = some ⟨c, p⟩) (d : Nat) :
    (s.setRef k ⟨c, q⟩).count d + (if Ref.holds d ⟨c, p⟩ then 1 else 0) =
      s.count d + if Ref.holds d ⟨c, q⟩ then 1 else 0 :=
  tableCount_update hn hid hk ⟨c, q⟩ (Ref.holds d)

theorem count_rephase (hn : s.ids.Nodup) (hid : k ∈ s.ids) {p q : RefPhase}
    (hk : s.refs k = some ⟨c, p⟩) (hp : p ≠ .dropped) (hq : q ≠ .dropped) (d : Nat) :
    (s.setRef k ⟨c, q⟩).count d = s.count d := by
  have h := count_setRef hn hid (q := q) hk d
  have he : Ref.holds d ⟨c, p⟩ = Ref.holds d ⟨c, q⟩ := by simp [Ref.holds, hp, hq]
  rw [he] at h
  omega

theorem count_drop (hn : s.ids.Nodup) (hid : k ∈ s.ids) {p : RefPhase}
    (hk : s.refs k = some ⟨c, p⟩) (hp : p ≠ .dropped) (d : Nat) :
    (s.setRef k ⟨c, .dropped⟩).count d + (if c = d then 1 else 0) = s.count d := by
  have h := count_setRef hn hid (q := .dropped) hk d
  simpa [Ref.holds, hp] using h

theorem count_add {r : Ref} (hid : k ∉ s.ids) (hp : r.phase ≠ .dropped) (d : Nat) :
    tableCount (Function.update s.refs k (some r)) (k :: s.ids) (Ref.holds d) =
      s.count d + if r.conn = d then 1 else 0 := by
  rw [tableCount_cons hid r (Ref.holds d)]
  simp [Ref.holds, hp, count]

/-! ## References and descriptors -/

/-- `c` is not deleted and has the descriptor `fd`. -/
def Has (s : Process) (c fd : Nat) : Prop := ∃ o, s.Live c o ∧ o.fd = fd

/-- References lead to connections, and these have the open descriptors among them. -/
structure Named (pipefd : Nat) (s : Process) : Prop where
  nodup : s.ids.Nodup
  listed : ∀ k r, s.refs k = some r → k ∈ s.ids
  named : ∀ k r, s.refs k = some r → s.objs r.conn ≠ none
  target : ∀ k r, s.refs k = some r → r.phase ≠ .dropped → ∃ fd, s.Has r.conn fd
  fds : ∀ fd, fd ∈ s.openFds ↔ fd = pipefd ∨ ∃ c, s.Has c fd
  unique : ∀ c d fd, s.Has c fd → s.Has d fd → c = d
  pipe : ∀ c, ¬ s.Has c pipefd

/-- `PollMgr` knows open descriptors only, and calls what is not deleted. -/
structure Polls (s : Process) : Prop where
  removing : s.mgr.Removing
  callbacks : ∀ fd c, s.mgr.callbacks fd = some c → s.Has c fd
  watched : ∀ fd, s.mgr.aio.Watched fd → fd ∈ s.openFds
  copied : ∀ fd, s.mgr.poll.Copied fd → fd ∈ s.openFds
  checked : ∀ cb due, s.mgr.poll = .checked cb due → s.mgr.callbacks cb.fd ≠ none
  calling : ∀ c ph, s.current = some (c, ph) → ∃ fd, s.Has c fd
  idle : s.current = none → ¬ s.mgr.poll.Calling

variable {pipefd : Nat}

/-- The references of the other connections stay, and those of `c` keep their names. -/
structure RefsStay (s s' : Process) (c : Nat) : Prop where
  ids : s'.ids = s.ids
  names : ∀ k r, s'.refs k = some r →
    ∃ p, s.refs k = some ⟨r.conn, p⟩ ∧ (r.phase ≠ .dropped → p ≠ .dropped)
  others : ∀ k r, r.conn ≠ c → (s'.refs k = some r ↔ s.refs k = some r)
  count : ∀ d, d ≠ c → s'.count d = s.count d

/-- At most `c` changes. -/
structure Touches (s s' : Process) (c : Nat) (o o' : ConnObj) : Prop where
  before : s.objs c = some o
  after : s'.objs = Function.update s.objs c (some o')
  fd : o'.fd = o.fd
  deleted : o'.deleted = o.deleted

theorem touches_refl (ho : s.objs c = some o) (he : s'.objs = s.objs) : s.Touches s' c o o where
  before := ho
  after := by rw [he, ← ho, Function.update_eq_self]
  fd := rfl
  deleted := rfl

theorem Touches.live_of_ne (h : s.Touches s' c o o') {d : Nat} {p : ConnObj} (hd : d ≠ c) :
    s'.Live d p ↔ s.Live d p := by
  unfold Live
  rw [h.after, Function.update_of_ne hd]

theorem Touches.live_self (h : s.Touches s' c o o') {p : ConnObj} (hl : s'.Live c p) :
    p = o' ∧ s.Live c o := by
  obtain ⟨hp, hdel⟩ := hl
  rw [h.after, Function.update_self] at hp
  cases hp
  exact ⟨rfl, h.before, h.deleted.symm.trans hdel⟩

theorem Touches.has (h : s.Touches s' c o o') (d fd : Nat) : s'.Has d fd ↔ s.Has d fd := by
  by_cases hd : d = c
  · subst hd
    constructor
    · rintro ⟨p, hl, hfd⟩
      obtain ⟨rfl, hl⟩ := h.live_self hl
      exact ⟨o, hl, h.fd.symm.trans hfd⟩
    · rintro ⟨p, ⟨hp, hdel⟩, hfd⟩
      cases h.before.symm.trans hp
      refine ⟨o', ⟨?_, h.deleted.trans hdel⟩, h.fd.trans hfd⟩
      rw [h.after, Function.update_self]
  · exact exists_congr fun p => and_congr_left' (h.live_of_ne hd)

theorem refsStay_refl (hr : s'.refs = s.refs) (hi : s'.ids = s.ids) : s.RefsStay s' c where
  ids := hi
  names k r hk := ⟨r.phase, by rw [← hk, hr], id⟩
  others k r _ := by rw [hr]
  count d _ := by rw [count, count, hr, hi]

theorem refsStay_setRef (hn : s.ids.Nodup) (hid : k ∈ s.ids) {p q : RefPhase}
    (hk : s.refs k = some ⟨c, p⟩) (hp : p ≠ .dropped)
    (hr : s'.refs = Function.update s.refs k (some ⟨c, q⟩)) (hi : s'.ids = s.ids) :
    s.RefsStay s' c where
  ids := hi
  names k' r hk' := by
    rw [hr] at hk'
    rcases setRef_refs_cases (s := s) hk' with ⟨rfl, rfl⟩ | ⟨-, hk'⟩
    · exact ⟨p, hk, fun _ => hp⟩
    · exact ⟨r.phase, hk', id⟩
  others k' r hc := by
    rw [hr]
    by_cases hkk : k' = k
    · subst hkk
      rw [Function.update_self, hk]
      constructor
      · rintro ⟨⟩
        exact absurd rfl hc
      · rintro ⟨⟩
        exact absurd rfl hc
    · rw [Function.update_of_ne hkk]
  count d hd := by
    have h := count_setRef hn hid (q := q) hk d
    have hcd : ¬ c = d := fun he => hd he.symm
    simp only [Ref.holds, hcd, false_and, decide_false, Bool.false_eq_true, if_false] at h
    rw [count, hr, hi]
    exact h

theorem Named.touched (h : s.Named pipefd) (ht : s.Touches s' c o o') (hs : s.RefsStay s' c)
    (hopen : s'.openFds = s.openFds) : s'.Named pipefd where
  nodup := by rw [hs.ids]; exact h.nodup
  listed k r hk := by
    obtain ⟨p, hp, -⟩ := hs.names k r hk
    rw [hs.ids]
    exact h.listed k _ hp
  named k r hk := by
    obtain ⟨p, hp, -⟩ := hs.names k r hk
    rw [ht.after]
    by_cases hc : r.conn = c
    · simp [hc]
    · rw [Function.update_of_ne hc]
      exact h.named k ⟨r.conn, p⟩ hp
  target k r hk hne := by
    obtain ⟨p, hp, hpn⟩ := hs.names k r hk
    obtain ⟨fd, hfd⟩ := h.target k _ hp (hpn hne)
    exact ⟨fd, (ht.has _ _).mpr hfd⟩
  fds fd := by
    rw [hopen, h.fds]
    exact or_congr_right (exists_congr fun c => (ht.has c fd).symm)
  unique c d fd hc hd := h.unique c d fd ((ht.has _ _).mp hc) ((ht.has _ _).mp hd)
  pipe c hc := h.pipe c ((ht.has _ _).mp hc)

/-- A step of `PollMgr` on behalf of connections that are not deleted. -/
theorem Polls.exec (h : s.Polls) (hx : s.mgr.Exec a s'.mgr)
    (hhas : ∀ c fd, s.Has c fd → s'.Has c fd) (hopen : s'.openFds = s.openFds)
    (hadd : ∀ fd flag ch, a = .addWatch fd flag ch → fd ∈ s.openFds)
    (hstore : ∀ fd c, a = .addStore → s.mgr.mutex = some (.add fd c) → s.Has c fd)
    (hdel : a = .delStore → s.mgr.poll.Calling)
    (hret : ∀ t x, a = .removeReturn t → s.mgr.removers t = some x →
      ¬ s.mgr.poll.Mentions x.fd)
    (hcalling : ∀ c ph, s'.current = some (c, ph) → ∃ fd, s.Has c fd)
    (hidle : s'.current = none → ¬ s'.mgr.poll.Calling) : s'.Polls where
  removing := PollMgr.removing_exec h.removing hx
  callbacks fd c hc := by
    rcases PollMgr.callbacks_exec hx hc with hc | ⟨ha, hm⟩
    · exact hhas _ _ (h.callbacks fd c hc)
    · exact hhas _ _ (hstore fd c ha hm)
  watched fd hw := by
    rw [hopen]
    rcases PollMgr.watched_exec hx hw with hw | ⟨flag, ch, ha⟩
    · exact h.watched fd hw
    · exact hadd fd flag ch ha
  copied fd hc := by
    rw [hopen]
    rcases PollMgr.copied_exec hx hc with hc | hw
    · exact h.copied fd hc
    · exact h.watched fd hw
  checked cb due hp hnone := by
    obtain ⟨hp', hcb | ha | ⟨t, ph, ha, ht⟩⟩ := PollMgr.checked_exec hx hp hnone
    · exact h.checked cb due hp' hcb
    · obtain ⟨c, due', hc⟩ := hdel ha
      cases hp'.symm.trans hc
    · refine hret t _ ha ht ?_
      rw [hp']
      exact List.mem_cons_self
  calling c ph hc := by
    obtain ⟨fd, hfd⟩ := hcalling c ph hc
    exact ⟨fd, hhas c fd hfd⟩
  idle := hidle

/-- A step without `PollMgr`. -/
theorem Polls.same (h : s.Polls) (hm : s'.mgr = s.mgr) (hhas : ∀ c fd, s.Has c fd → s'.Has c fd)
    (hopen : s.openFds ⊆ s'.openFds)
    (hcalling : ∀ c ph, s'.current = some (c, ph) → ∃ ph', s.current = some (c, ph'))
    (hidle : s'.current = none → s.current = none) : s'.Polls where
  removing := by rw [hm]; exact h.removing
  callbacks fd c hc := by
    rw [hm] at hc
    exact hhas _ _ (h.callbacks fd c hc)
  watched fd hw := by
    rw [hm] at hw
    exact hopen (h.watched fd hw)
  copied fd hc := by
    rw [hm] at hc
    exact hopen (h.copied fd hc)
  checked := by rw [hm]; exact h.checked
  calling c ph hc := by
    obtain ⟨ph', hc'⟩ := hcalling c ph hc
    obtain ⟨fd, hfd⟩ := h.calling c ph' hc'
    exact ⟨fd, hhas c fd hfd⟩
  idle hc := by
    rw [hm]
    exact h.idle (hidle hc)

/-- What every step keeps. -/
structure Core (pipefd : Nat) (s : Process) : Prop where
  named : s.Named pipefd
  polls : s.Polls
  conns : ∀ c o, s.Live c o → s.ConnOk c o

theorem Named.ne_fd (h : s.Named pipefd) {d : Nat} {p : ConnObj} (ho : s.Live c o)
    (hp : s.Live d p) (hd : d ≠ c) : p.fd ≠ o.fd := fun he =>
  hd (h.unique d c o.fd ⟨p, hp, he⟩ ⟨o, ho, rfl⟩)

/-- A step that changes `c`. -/
theorem Core.acted (h : s.Core pipefd) (hl : s.Live c o) (ht : s.Touches s' c o o')
    (hs : s.RefsStay s' c) (hopen : s'.openFds = s.openFds)
    (hstill : ∀ d p, d ≠ c → s.Live d p → p.fd ≠ o.fd → s.Still s'.mgr d p)
    (hcur : ∀ d ph, d ≠ c → s'.current = some (d, ph) → s.current = some (d, ph))
    (hpolls : s'.Polls) (hc : s'.ConnOk c o') : s'.Core pipefd where
  named := h.named.touched ht hs hopen
  polls := hpolls
  conns d p hp := by
    by_cases hd : d = c
    · subst hd
      obtain ⟨rfl, -⟩ := ht.live_self hp
      exact hc
    · have hp := (ht.live_of_ne hd).mp hp
      exact (h.conns d p hp).away (hstill d p hd hp (h.named.ne_fd hl hp hd))
        (fun ph hph => .inl (hcur d ph hd hph)) (fun k r hr => hs.others k r (hr ▸ hd))
        (hs.count d hd)

theorem Core.live_of_ref (h : s.Core pipefd) {p : RefPhase} (hk : s.refs k = some ⟨c, p⟩)
    (hp : p ≠ .dropped) (ho : s.objs c = some o) : s.Live c o := by
  obtain ⟨fd, o₁, hl, -⟩ := h.named.target k _ hk hp
  cases ho.symm.trans hl.1
  exact hl

theorem Core.live_of_current (h : s.Core pipefd) {ph : CbPhase}
    (hc : s.current = some (c, ph)) (ho : s.objs c = some o) : s.Live c o := by
  obtain ⟨fd, o₁, hl, -⟩ := h.polls.calling c ph hc
  cases ho.symm.trans hl.1
  exact hl

end Process

end RpcLock.Connection
