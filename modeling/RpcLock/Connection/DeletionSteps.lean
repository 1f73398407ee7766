import RpcLock.Connection.Deletion

/-!
# The steps of a process

Each step keeps `Core`.  What it does to its own connection is `ConnOk.lend`, where
references change hands, and `ConnOk.alone`, where nobody else is in an
`add_callback`; the other connections are `Core.acted`.
-/

namespace RpcLock.Connection

namespace Process

variable {s s' : Process} {c k : Nat} {o o' : ConnObj} {m : PollMgr} {a : PollMgrAct}
  {pipefd : Nat}

/-! ## References change hands -/

/-- References come and go, and change their phases, without `PollMgr`. -/
theorem ConnOk.lend (h : s.ConnOk c o) {n : Nat} (hm : s'.mgr = s.mgr)
    (hcur : s'.current = s.current) (hn : n = s'.count c)
    (hlate : ∀ k r, s.refs k = some r → r.conn = c → ¬ Early r.phase)
    (hrefs : ∀ k r, s'.refs k = some r → r.conn = c → s.refs k = some r ∨
      r.phase = .held ∨ r.phase = .dropped ∨ r.phase = .kept ∧ o.maker = k)
    (hdying : ∀ k p, p = .failed ∨ p = .removing → s.refs k = some ⟨c, p⟩ →
      s'.refs k = some ⟨c, p⟩) : s'.ConnOk c { o with refno := n } where
  refs k r hk hc hp := by
    rcases hrefs k r hk hc with hk | hr | hr | ⟨hr, hmk⟩
    · refine h.rest hk hc hp rfl rfl id (fun hb => ?_) fun _ hret => by rwa [hm]
      have hbusy := h.busy hk hc (hlate k r hk hc) hb
      rw [← hm, ← hcur] at hbusy
      obtain ⟨d, p⟩ := r
      cases p with
      | adding f =>
          cases f with
          | rdonly => exact absurd (.inr rfl) (hlate k _ hk hc)
          | none | wronly | rdwr | mask => exact hbusy
      | making => exact absurd (.inl rfl) (hlate k _ hk hc)
      | _ => exact hb.elim
    · rw [hr]
      exact trivial
    · exact absurd hr hp
    · rw [hr]
      exact hmk
  one k k' f f' hk hk' := by
    have hold : ∀ {k f}, s'.refs k = some ⟨c, .adding f⟩ → s.refs k = some ⟨c, .adding f⟩ := by
      intro k f hk
      rcases hrefs k _ hk rfl with hk | hr | hr | ⟨hr, -⟩
      · exact hk
      all_goals cases hr
    exact h.one k k' f f' (hold hk) (hold hk')
  refno := hn
  current ph hph := by
    rw [hcur] at hph
    rw [hm]
    obtain ⟨hp, hat⟩ := h.current ph hph
    refine ⟨hp, ?_⟩
    cases ph with
    | entered | locked | finished => exact hat
    | deleting rdwr =>
        unfold AtCallback
        rw [hm]
        exact hat
  death hd := by
    rcases h.death hd with ⟨k, hk⟩ | hclear
    · exact .inl ⟨k, hk.imp (hdying k _ (.inl rfl)) (hdying k _ (.inr rfl))⟩
    · rw [hm, hcur]
      exact .inr hclear

/-- The owner of a reference does something else with it. -/
theorem core_rephase (h : s.Core pipefd) {p q : RefPhase} (hk : s.refs k = some ⟨c, p⟩)
    (hp : p = .made ∨ p = .kept) (hq : q = .held ∨ p = .made ∧ q = .kept) :
    (s.setRef k ⟨c, q⟩).Core pipefd := by
  have hpd : p ≠ .dropped := by rcases hp with rfl | rfl <;> exact nofun
  have hqd : q ≠ .dropped := by rcases hq with rfl | ⟨-, rfl⟩ <;> exact nofun
  have hpe : ¬ Early p := by rcases hp with rfl | rfl <;> rintro (he | he) <;> cases he
  obtain ⟨fd, o, hl, -⟩ := h.named.target k _ hk hpd
  have hid := h.named.listed k _ hk
  have hok := h.conns c o hl
  have hmaker : o.maker = k := by
    have := hok.refs k _ hk rfl hpd
    rcases hp with rfl | rfl <;> exact this
  refine h.acted hl (touches_refl hl.1 rfl) (refsStay_setRef h.named.nodup hid hk hpd rfl rfl) rfl
    (fun d p _ _ _ => still_refl s d p) (fun _ _ _ hc => hc)
    (h.polls.same rfl (fun _ _ => id) subset_rfl (fun _ ph hc => ⟨ph, hc⟩) id) ?_
  refine hok.lend rfl rfl
    (hok.refno.trans (count_rephase h.named.nodup hid hk hpd hqd c).symm) (hok.late hk hpe)
    (fun k' r hk' hc => ?_) (fun k' p' hp' hk' => ?_)
  · rcases setRef_refs_cases hk' with ⟨rfl, rfl⟩ | ⟨-, hk'⟩
    · rcases hq with rfl | ⟨-, rfl⟩
      · exact .inr (.inl rfl)
      · exact .inr (.inr (.inr ⟨rfl, hmaker⟩))
    · exact .inl hk'
  · rw [setRef_refs_ne _ _ ?_]
    · exact hk'
    · rintro rfl
      cases hk.symm.trans hk'
      rcases hp with rfl | rfl <;> rcases hp' with hp' | hp' <;> cases hp'

/-- A reference is given back, and the connection stays. -/
theorem core_keep (h : s.Core pipefd) {p : RefPhase} (hk : s.refs k = some ⟨c, p⟩)
    (hp : p = .held ∨ p = .kept) (ho : s.objs c = some o) :
    ((s.setRef k ⟨c, .dropped⟩).setObj c { o with refno := o.refno - 1 }).Core pipefd := by
  have hpd : p ≠ .dropped := by rcases hp with rfl | rfl <;> exact nofun
  have hpe : ¬ Early p := by rcases hp with rfl | rfl <;> rintro (he | he) <;> cases he
  have hl := h.live_of_ref hk hpd ho
  have hid := h.named.listed k _ hk
  have hok := h.conns c o hl
  have hcount := count_drop h.named.nodup hid hk hpd c
  rw [if_pos rfl] at hcount
  have ht : s.Touches ((s.setRef k ⟨c, .dropped⟩).setObj c { o with refno := o.refno - 1 }) c o
      { o with refno := o.refno - 1 } := ⟨ho, rfl, rfl, rfl⟩
  refine h.acted hl ht (refsStay_setRef h.named.nodup hid hk hpd rfl rfl) rfl
    (fun d p _ _ _ => still_refl s d p) (fun _ _ _ hc => hc)
    (h.polls.same rfl (fun d fd => (ht.has d fd).mpr) subset_rfl (fun _ ph hc => ⟨ph, hc⟩) id) ?_
  refine hok.lend rfl rfl ?_ (hok.late hk hpe) (fun k' r hk' hc => ?_) (fun k' p' hp' hk' => ?_)
  · have hrefno := hok.refno
    show o.refno - 1 = (s.setRef k ⟨c, .dropped⟩).count c
    omega
  · rcases setRef_refs_cases (s := s) hk' with ⟨rfl, rfl⟩ | ⟨-, hk'⟩
    · exact .inr (.inr (.inl rfl))
    · exact .inl hk'
  · refine (setRef_refs_ne s _ ?_).trans hk'
    rintro rfl
    cases hk.symm.trans hk'
    rcases hp with rfl | rfl <;> rcases hp' with hp' | hp' <;> cases hp'

/-- With a single reference nobody else has one. -/
theorem ConnOk.sole (h : s.ConnOk c o) (hn : s.Named pipefd) (hone : o.refno = 1) {p : RefPhase}
    (hk : s.refs k = some ⟨c, p⟩) (hp : p ≠ .dropped) {k' : Nat} {r : Ref} (hne : k' ≠ k)
    (hk' : s.refs k' = some r) (hc : r.conn = c) : r.phase = .dropped := by
  by_contra hr
  have hcount := count_drop hn.nodup (hn.listed k _ hk) hk hp c
  rw [if_pos rfl, ← h.refno, hone] at hcount
  have hpos : 0 < (s.setRef k ⟨c, .dropped⟩).count c :=
    tableCount_pos (hn.listed k' r hk') ((setRef_refs_ne s _ hne).trans hk')
      (decide_eq_true ⟨hc, hr⟩)
  omega

/-- When the last reference to a dead connection is given back, the poll thread is done
with it. -/
theorem ConnOk.abandoned (h : s.ConnOk c o) (hn : s.Named pipefd) {p : RefPhase}
    (hk : s.refs k = some ⟨c, p⟩) (hp : p = .held ∨ p = .kept) (hone : o.refno = 1)
    (hlock : o.locked = false) (hdead : o.dead = true) :
    s.mgr.Clear c o.fd ∧ ∀ ph, s.current ≠ some (c, ph) := by
  have hpd : p ≠ .dropped := by rcases hp with rfl | rfl <;> exact nofun
  rcases h.death hdead with ⟨k', hk'⟩ | ⟨hclear, hfin⟩
  · have hne : k' ≠ k := by
      rintro rfl
      rcases hk' with hk' | hk' <;> cases hk.symm.trans hk' <;> rcases hp with hp | hp <;> cases hp
    rcases hk' with hk' | hk' <;> cases h.sole hn hone hk hpd hne hk' rfl
  · refine ⟨hclear, fun ph hph => ?_⟩
    obtain rfl := hfin ph hph
    have hl : o.locked = true := (h.current _ hph).2
    cases hlock.symm.trans hl

/-- The last reference to a dead connection goes, and `~connection` closes its
descriptor. -/
def erased (s : Process) (k c : Nat) (o : ConnObj) : Process :=
  { (s.setRef k ⟨c, .dropped⟩).setObj c { o with refno := o.refno - 1, deleted := true } with
    openFds := s.openFds.erase o.fd }

theorem live_erased (d : Nat) (q : ConnObj) : (s.erased k c o).Live d q ↔ d ≠ c ∧ s.Live d q := by
  have hobjs : (s.erased k c o).objs = Function.update s.objs c
      (some { o with refno := o.refno - 1, deleted := true }) := rfl
  unfold Live
  rw [hobjs]
  by_cases hd : d = c
  · subst hd
    rw [Function.update_self]
    constructor
    · rintro ⟨⟨⟩, hdel⟩
      cases hdel
    · exact fun hq => absurd rfl hq.1
  · rw [Function.update_of_ne hd]
    exact ⟨fun hq => ⟨hd, hq⟩, And.right⟩

theorem has_erased (d fd : Nat) : (s.erased k c o).Has d fd ↔ d ≠ c ∧ s.Has d fd := by
  constructor
  · rintro ⟨q, hq, hfd⟩
    obtain ⟨hd, hq⟩ := (live_erased d q).mp hq
    exact ⟨hd, q, hq, hfd⟩
  · rintro ⟨hd, q, hq, hfd⟩
    exact ⟨q, (live_erased d q).mpr ⟨hd, hq⟩, hfd⟩

theorem Live.fd_of_has (h : s.Live c o) {fd : Nat} (hfd : s.Has c fd) : fd = o.fd := by
  obtain ⟨q, hq, rfl⟩ := hfd
  cases hq.1.symm.trans h.1
  rfl

theorem named_erased (h : s.Named pipefd) (hl : s.Live c o) (hs : s.RefsStay (s.erased k c o) c)
    (hsole : ∀ k' r, k' ≠ k → s.refs k' = some r → r.conn = c → r.phase = .dropped) :
    (s.erased k c o).Named pipefd where
  nodup := by rw [hs.ids]; exact h.nodup
  listed k' r hk' := by
    obtain ⟨q, hq, -⟩ := hs.names k' r hk'
    rw [hs.ids]
    exact h.listed k' _ hq
  named k' r hk' := by
    obtain ⟨q, hq, -⟩ := hs.names k' r hk'
    show Function.update s.objs c _ r.conn ≠ none
    by_cases hc : r.conn = c
    · simp [hc]
    · rw [Function.update_of_ne hc]
      exact h.named k' ⟨r.conn, q⟩ hq
  target k' r hk' hr := by
    rcases setRef_refs_cases (s := s) hk' with ⟨-, rfl⟩ | ⟨hne, hk'⟩
    · exact absurd rfl hr
    · obtain ⟨fd, hfd⟩ := h.target k' r hk' hr
      exact ⟨fd, (has_erased _ _).mpr ⟨fun hc => hr (hsole k' r hne hk' hc), hfd⟩⟩
  fds fd := by
    -- the descriptor of another connection, or of the pipe, is another one
    have hother : fd = pipefd ∨ (∃ d, d ≠ c ∧ s.Has d fd) → fd ≠ o.fd := by
      rintro (rfl | ⟨d, hd, hfd⟩) rfl
      · exact h.pipe c ⟨o, hl, rfl⟩
      · exact hd (h.unique d c o.fd hfd ⟨o, hl, rfl⟩)
    show fd ∈ s.openFds.erase o.fd ↔ _
    rw [Finset.mem_erase, h.fds]
    constructor
    · rintro ⟨hne, rfl | ⟨d, hd⟩⟩
      · exact .inl rfl
      · refine .inr ⟨d, (has_erased d fd).mpr ⟨?_, hd⟩⟩
        rintro rfl
        exact hne (hl.fd_of_has hd)
    · rintro (rfl | ⟨d, hd⟩)
      · exact ⟨hother (.inl rfl), .inl rfl⟩
      · obtain ⟨hdc, hd⟩ := (has_erased d fd).mp hd
        exact ⟨hother (.inr ⟨d, hdc, hd⟩), .inr ⟨d, hd⟩⟩
  unique d e fd hd he := h.unique d e fd ((has_erased _ _).mp hd).2 ((has_erased _ _).mp he).2
  pipe d hd := h.pipe d ((has_erased _ _).mp hd).2

theorem polls_erased (h : s.Polls) (hl : s.Live c o) (hclear : s.mgr.Clear c o.fd)
    (haway : ∀ ph, s.current ≠ some (c, ph)) : (s.erased k c o).Polls where
  removing := h.removing
  callbacks fd d hd := by
    have hfd := h.callbacks fd d hd
    refine (has_erased d fd).mpr ⟨?_, hfd⟩
    rintro rfl
    exact hclear.callback (hl.fd_of_has hfd ▸ hd)
  watched fd hw := by
    refine Finset.mem_erase.mpr ⟨?_, h.watched fd hw⟩
    rintro rfl
    exact hclear.unwatched hw
  copied fd hw := by
    refine Finset.mem_erase.mpr ⟨?_, h.copied fd hw⟩
    rintro rfl
    exact hclear.uncopied hw
  checked := h.checked
  calling d ph hd := by
    obtain ⟨fd, hfd⟩ := h.calling d ph hd
    refine ⟨fd, (has_erased d fd).mpr ⟨?_, hfd⟩⟩
    rintro rfl
    exact haway ph hd
  idle := h.idle

/-- The last reference to a dead connection is given back. -/
theorem core_delete (h : s.Core pipefd) {p : RefPhase} (hk : s.refs k = some ⟨c, p⟩)
    (hp : p = .held ∨ p = .kept) (ho : s.objs c = some o) (hone : o.refno = 1)
    (hlock : o.locked = false) (hdead : o.dead = true) : (s.erased k c o).Core pipefd := by
  have hpd : p ≠ .dropped := by rcases hp with rfl | rfl <;> exact nofun
  have hl := h.live_of_ref hk hpd ho
  have hok := h.conns c o hl
  obtain ⟨hclear, haway⟩ := hok.abandoned h.named hk hp hone hlock hdead
  have hstay : s.RefsStay (s.erased k c o) c :=
    refsStay_setRef h.named.nodup (h.named.listed k _ hk) hk hpd rfl rfl
  refine ⟨named_erased h.named hl hstay fun k' r hne hk' hc =>
      hok.sole h.named hone hk hpd hne hk' hc,
    polls_erased h.polls hl hclear haway, fun d q hq => ?_⟩
  obtain ⟨hd, hq⟩ := (live_erased d q).mp hq
  exact (h.conns d q hq).away (still_refl s d q) (fun _ hph => .inl hph)
    (fun k' r hr => hstay.others k' r (hr ▸ hd)) (hstay.count d hd)

theorem touches_shared (hl : s.Live c o) :
    s.Touches (s.shared k c o) c o { o with refno := o.refno + 1 } := ⟨hl.1, rfl, rfl, rfl⟩

theorem named_shared (h : s.Named pipefd) (hl : s.Live c o) (hid : k ∉ s.ids) :
    (s.shared k c o).Named pipefd where
  nodup := List.nodup_cons.mpr ⟨hid, h.nodup⟩
  listed k' r hk' := by
    rcases setRef_refs_cases (s := s) hk' with ⟨rfl, -⟩ | ⟨-, hk'⟩
    · exact List.mem_cons_self
    · exact List.mem_cons_of_mem _ (h.listed k' r hk')
  named k' r hk' := by
    by_cases hc : r.conn = c
    · rw [(touches_shared hl).after, hc, Function.update_self]
      exact nofun
    · rw [(touches_shared hl).after, Function.update_of_ne hc]
      rcases setRef_refs_cases (s := s) hk' with ⟨-, rfl⟩ | ⟨-, hk'⟩
      · exact absurd rfl hc
      · exact h.named k' r hk'
  target k' r hk' hr := by
    rcases setRef_refs_cases (s := s) hk' with ⟨-, rfl⟩ | ⟨-, hk'⟩
    · exact ⟨o.fd, ((touches_shared hl).has _ _).mpr ⟨o, hl, rfl⟩⟩
    · obtain ⟨fd, hfd⟩ := h.target k' r hk' hr
      exact ⟨fd, ((touches_shared hl).has _ _).mpr hfd⟩
  fds fd := (h.fds fd).trans
    (or_congr_right (exists_congr fun d => ((touches_shared hl).has d fd).symm))
  unique d e fd hd he :=
    h.unique d e fd (((touches_shared hl).has _ _).mp hd) (((touches_shared hl).has _ _).mp he)
  pipe d hd := h.pipe d (((touches_shared hl).has _ _).mp hd)

/-- `c` gets one more reference. -/
theorem core_shared (h : s.Core pipefd) (hl : s.Live c o) (hid : k ∉ s.ids)
    (hlate : ∀ k r, s.refs k = some r → r.conn = c → ¬ Early r.phase) :
    (s.shared k c o).Core pipefd := by
  have hnew : ∀ k' r, s.refs k' = some r → k' ≠ k := by
    rintro k' r hk' rfl
    exact hid (h.named.listed _ r hk')
  have hok := h.conns c o hl
  have ht : s.Touches (s.shared k c o) c o { o with refno := o.refno + 1 } := touches_shared hl
  have hcount : ∀ d, (s.shared k c o).count d = s.count d + if c = d then 1 else 0 :=
    fun d => count_add (r := ⟨c, .held⟩) hid nofun d
  refine ⟨named_shared h.named hl hid, h.polls.same rfl (fun d fd => (ht.has d fd).mpr)
    subset_rfl (fun _ ph hc => ⟨ph, hc⟩) id, fun d p hp => ?_⟩
  by_cases hd : d = c
  · subst hd
    obtain ⟨rfl, -⟩ := ht.live_self hp
    refine hok.lend rfl rfl ?_ hlate (fun k' r hk' _ => ?_) (fun k' p' _ hk' => ?_)
    · rw [hcount, if_pos rfl, hok.refno]
    · rcases setRef_refs_cases (s := s) hk' with ⟨-, rfl⟩ | ⟨-, hk'⟩
      · exact .inr (.inl rfl)
      · exact .inl hk'
    · exact (setRef_refs_ne s _ (hnew _ _ hk')).trans hk'
  · refine (h.conns d p ((ht.live_of_ne hd).mp hp)).away (still_refl s d p)
      (fun ph hph => .inl hph) (fun k' r hr => ?_) ?_
    · constructor
      · intro hk'
        rcases setRef_refs_cases (s := s) hk' with ⟨-, rfl⟩ | ⟨-, hk'⟩
        · exact absurd hr.symm hd
        · exact hk'
      · exact fun hk' => (setRef_refs_ne s _ (hnew _ _ hk')).trans hk'
    · rw [hcount, if_neg (Ne.symm hd), Nat.add_zero]

/-- The connections beside a new one. -/
theorem live_created {fd : Nat} (d : Nat) (o : ConnObj) : (s.created k c fd).Live d o ↔
    d = c ∧ o = ⟨fd, false, 1, false, false, k⟩ ∨ d ≠ c ∧ s.Live d o := by
  have hobjs : (s.created k c fd).objs =
      Function.update s.objs c (some ⟨fd, false, 1, false, false, k⟩) := rfl
  unfold Live
  rw [hobjs]
  by_cases hd : d = c
  · subst hd
    rw [Function.update_self]
    constructor
    · rintro ⟨⟨⟩, -⟩
      exact .inl ⟨rfl, rfl⟩
    · rintro (⟨-, rfl⟩ | ⟨hd, -⟩)
      · exact ⟨rfl, rfl⟩
      · exact absurd rfl hd
  · rw [Function.update_of_ne hd]
    exact ⟨fun ho => .inr ⟨hd, ho⟩, fun ho => (ho.resolve_left fun he => hd he.1).2⟩

theorem not_has_of_none (hc : s.objs c = none) (fd : Nat) : ¬ s.Has c fd := by
  rintro ⟨o, ho, -⟩
  cases hc.symm.trans ho.1

theorem has_created {fd : Nat} (hc : s.objs c = none) (d i : Nat) :
    (s.created k c fd).Has d i ↔ d = c ∧ i = fd ∨ s.Has d i := by
  constructor
  · rintro ⟨o, ho, rfl⟩
    rcases (live_created d o).mp ho with ⟨rfl, rfl⟩ | ⟨-, ho⟩
    · exact .inl ⟨rfl, rfl⟩
    · exact .inr ⟨o, ho, rfl⟩
  · rintro (⟨rfl, rfl⟩ | ⟨o, ho, rfl⟩)
    · exact ⟨_, (live_created _ _).mpr (.inl ⟨rfl, rfl⟩), rfl⟩
    · refine ⟨o, (live_created d o).mpr (.inr ⟨?_, ho⟩), rfl⟩
      rintro rfl
      exact not_has_of_none hc _ ⟨o, ho, rfl⟩

/-- Nobody has the name of a new reference, or a reference to a new connection. -/
theorem Named.fresh (h : s.Named pipefd) (hid : k ∉ s.ids) (hc : s.objs c = none) (k' : Nat)
    (r : Ref) (hk' : s.refs k' = some r) : k' ≠ k ∧ r.conn ≠ c := by
  refine ⟨?_, fun hrc => h.named k' r hk' (hrc ▸ hc)⟩
  rintro rfl
  exact hid (h.listed _ r hk')

theorem named_created {fd : Nat} (h : s.Named pipefd) (hid : k ∉ s.ids) (hc : s.objs c = none)
    (hfd : fd ∉ s.openFds) : (s.created k c fd).Named pipefd where
  nodup := List.nodup_cons.mpr ⟨hid, h.nodup⟩
  listed k' r hk' := by
    rcases setRef_refs_cases (s := s) hk' with ⟨rfl, rfl⟩ | ⟨-, hk'⟩
    · exact List.mem_cons_self
    · exact List.mem_cons_of_mem _ (h.listed k' r hk')
  named k' r hk' := by
    show Function.update s.objs c _ r.conn ≠ none
    rcases setRef_refs_cases (s := s) hk' with ⟨-, rfl⟩ | ⟨-, hk'⟩
    · simp
    · rw [Function.update_of_ne (h.fresh hid hc k' r hk').2]
      exact h.named k' r hk'
  target k' r hk' hr := by
    rcases setRef_refs_cases (s := s) hk' with ⟨-, rfl⟩ | ⟨-, hk'⟩
    · exact ⟨fd, (has_created hc _ _).mpr (.inl ⟨rfl, rfl⟩)⟩
    · obtain ⟨i, hi⟩ := h.target k' r hk' hr
      exact ⟨i, (has_created hc _ _).mpr (.inr hi)⟩
  fds i := by
    show i ∈ insert fd s.openFds ↔ _
    rw [Finset.mem_insert, h.fds]
    constructor
    · rintro (rfl | rfl | ⟨d, hd⟩)
      · exact .inr ⟨c, (has_created hc _ _).mpr (.inl ⟨rfl, rfl⟩)⟩
      · exact .inl rfl
      · exact .inr ⟨d, (has_created hc _ _).mpr (.inr hd)⟩
    · rintro (rfl | ⟨d, hd⟩)
      · exact .inr (.inl rfl)
      · rcases (has_created hc d i).mp hd with ⟨-, rfl⟩ | hd
        · exact .inl rfl
        · exact .inr (.inr ⟨d, hd⟩)
  unique d e i hd he := by
    have hclosed : ∀ d, ¬ s.Has d fd := fun d hd => hfd ((h.fds fd).mpr (.inr ⟨d, hd⟩))
    rcases (has_created hc d i).mp hd with ⟨hdc, rfl⟩ | hd₁
    · rcases (has_created hc e i).mp he with ⟨hec, -⟩ | he₁
      · exact hdc.trans hec.symm
      · exact absurd he₁ (hclosed e)
    · rcases (has_created hc e i).mp he with ⟨-, rfl⟩ | he₁
      · exact absurd hd₁ (hclosed d)
      · exact h.unique d e i hd₁ he₁
  pipe d hd := by
    rcases (has_created hc d pipefd).mp hd with ⟨-, rfl⟩ | hd
    · exact hfd ((h.fds pipefd).mpr (.inl rfl))
    · exact h.pipe d hd

/-- A connection without references. -/
theorem count_eq_zero (h : ∀ k r, s.refs k = some r → r.conn = c → r.phase = .dropped) :
    s.count c = 0 := by
  refine List.countP_eq_zero.mpr fun k _ hk => ?_
  cases hr : s.refs k with
  | none => simp [hr] at hk
  | some r =>
      rw [hr, Option.any_some] at hk
      obtain ⟨hc, hp⟩ := of_decide_eq_true hk
      exact hp (h k r hr hc)

/-- A new connection. -/
theorem core_created {fd : Nat} (h : s.Core pipefd) (hid : k ∉ s.ids) (hc : s.objs c = none)
    (hfd : fd ∉ s.openFds) : (s.created k c fd).Core pipefd := by
  have hnew := h.named.fresh hid hc
  have hcount : ∀ d, (s.created k c fd).count d = s.count d + if c = d then 1 else 0 :=
    fun d => count_add (r := ⟨c, .making⟩) hid nofun d
  have haway : ∀ ph, s.current ≠ some (c, ph) := by
    intro ph hph
    obtain ⟨i, hi⟩ := h.polls.calling c ph hph
    exact not_has_of_none hc i hi
  refine ⟨named_created h.named hid hc hfd,
    h.polls.same rfl (fun d i hd => (has_created hc d i).mpr (.inr hd))
      (Finset.subset_insert _ _) (fun _ ph hc => ⟨ph, hc⟩) id, fun d o ho => ?_⟩
  rcases (live_created d o).mp ho with ⟨rfl, rfl⟩ | ⟨hd, ho⟩
  · have hold : ∀ {k' r}, (s.created k d fd).refs k' = some r → r.conn = d →
        k' = k ∧ r = ⟨d, .making⟩ := by
      intro k' r hk' hr
      rcases setRef_refs_cases (s := s) hk' with hk' | ⟨-, hk'⟩
      · exact hk'
      · exact absurd hr (hnew k' r hk').2
    constructor
    case refs =>
      intro k' r hk' hr _
      obtain ⟨rfl, rfl⟩ := hold hk' hr
      exact ⟨rfl, rfl, fun hcb => not_has_of_none hc _ (h.polls.callbacks fd _ hcb), haway,
        fun k'' r' hk'' hr' => (hold hk'' hr').1⟩
    case one =>
      intro k₁ k₂ f f' h₁ _
      cases (hold h₁ rfl).2
    case refno =>
      rw [hcount, if_pos rfl, count_eq_zero fun k' r hk' hr => absurd hr (hnew k' r hk').2]
    case current => exact fun ph hph => absurd hph (haway ph)
    case death => exact nofun
  · refine (h.conns d o ho).away (still_refl s d o) (fun ph hph => .inl hph) (fun k' r hr => ?_) ?_
    · constructor
      · intro hk'
        rcases setRef_refs_cases (s := s) hk' with ⟨-, rfl⟩ | ⟨-, hk'⟩
        · exact absurd hr.symm hd
        · exact hk'
      · exact fun hk' => (setRef_refs_ne s _ (hnew _ _ hk').1).trans hk'
    · rw [hcount, if_neg (Ne.symm hd), Nat.add_zero]

/-! ## The phases of a connection -/

/-- A step beside which no reference to `c` is busy. -/
theorem ConnOk.alone (h : s.ConnOk c o) {p : RefPhase} (hmk : o'.maker = o.maker)
    (hfd : o'.fd = o.fd) (hd : o.dead = true → o'.dead = true)
    (hrefs : ∀ k' r, s'.refs k' = some r → r.conn = c →
      (k' = k ∧ r = ⟨c, p⟩) ∨ s.refs k' = some r ∧ ¬ r.phase.Busy ∧
        (s.refs k' = some ⟨c, .removing⟩ → s.mgr.Retiring k' o.fd → s'.mgr.Retiring k' o.fd))
    (hk : p ≠ .dropped → s'.Ok k c o' p) (hrefno : o'.refno = s'.count c)
    (hcur : ∀ ph, s'.current = some (c, ph) →
      (∃ cb due, s'.mgr.poll = .inside cb due ∧ cb.fd = o.fd) ∧ s'.AtCallback o' ph)
    (hdeath : o'.dead = true →
      (∃ k, s'.refs k = some ⟨c, .failed⟩ ∨ s'.refs k = some ⟨c, .removing⟩) ∨
      s'.mgr.Clear c o.fd ∧ ∀ ph, s'.current = some (c, ph) → ph = .finished) :
    s'.ConnOk c o' where
  refs k' r hk' hc hr := by
    rcases hrefs k' r hk' hc with ⟨rfl, rfl⟩ | ⟨hold, hb, hret⟩
    · exact hk hr
    · exact h.rest hold hc hr hmk hfd hd (fun hbusy => absurd hbusy hb) hret
  one k₁ k₂ f f' h₁ h₂ := by
    have honly : ∀ {k' f}, s'.refs k' = some ⟨c, .adding f⟩ → k' = k := by
      intro k' f hk'
      rcases hrefs k' _ hk' rfl with ⟨he, -⟩ | ⟨-, hb, -⟩
      · exact he
      · exact absurd trivial hb
    exact (honly h₁).trans (honly h₂).symm
  refno := hrefno
  current := by rw [hfd]; exact hcur
  death := by rw [hfd]; exact hdeath

/-- The owner of a reference marks the connection dead. -/
theorem core_fail (h : s.Core pipefd) (hk : s.refs k = some ⟨c, .held⟩) (ho : s.objs c = some o)
    (hlock : o.locked = false) :
    ((s.setObj c { o with dead := true }).setRef k ⟨c, .failed⟩).Core pipefd := by
  have hl := h.live_of_ref hk nofun ho
  have hok := h.conns c o hl
  have hid := h.named.listed k _ hk
  have ht : s.Touches ((s.setObj c { o with dead := true }).setRef k ⟨c, .failed⟩) c o
      { o with dead := true } := ⟨ho, rfl, rfl, rfl⟩
  refine h.acted hl ht (refsStay_setRef h.named.nodup hid hk nofun rfl rfl) rfl
    (fun d p _ _ _ => still_refl s d p) (fun _ _ _ hc => hc)
    (h.polls.same rfl (fun d fd => (ht.has d fd).mpr) subset_rfl (fun _ ph hc => ⟨ph, hc⟩) id) ?_
  refine hok.alone (k := k) (p := .failed) rfl rfl (fun _ => rfl) (fun k' r hk' hc => ?_)
    (fun _ => rfl)
    (hok.refno.trans (count_rephase (q := .failed) h.named.nodup hid hk nofun nofun c).symm)
    (fun ph hph => ?_) (fun _ => .inl ⟨k, .inl (setRef_refs_self _ _ _)⟩)
  · rcases setRef_refs_cases (s := s) hk' with hk' | ⟨-, hk'⟩
    · exact .inl hk'
    · exact .inr ⟨hk', hok.not_busy hk ⟨nofun, nofun⟩ (.inr hlock) hk' hc, fun _ => id⟩
  · obtain ⟨hp, hat⟩ := hok.current ph hph
    refine ⟨hp, ?_⟩
    cases ph with
    | entered => exact trivial
    | locked | finished => exact hat
    | deleting rdwr => cases hlock.symm.trans hat.1

theorem Core.open_fd (h : s.Core pipefd) (hl : s.Live c o) : o.fd ∈ s.openFds :=
  (h.named.fds o.fd).mpr (.inr ⟨c, o, hl, rfl⟩)

/-- A step of `PollMgr` outside of a callback. -/
theorem Polls.manages (h : s.Polls) (hx : s.mgr.Exec a s'.mgr) (hcur : s'.current = s.current)
    (ha : a ≠ .call ∧ a ≠ .delStore) (hhas : ∀ c fd, s.Has c fd → s'.Has c fd)
    (hopen : s'.openFds = s.openFds)
    (hadd : ∀ fd flag ch, a = .addWatch fd flag ch → fd ∈ s.openFds)
    (hstore : ∀ fd c, a = .addStore → s.mgr.mutex = some (.add fd c) → s.Has c fd)
    (hret : ∀ t x, a = .removeReturn t → s.mgr.removers t = some x →
      ¬ s.mgr.poll.Mentions x.fd) : s'.Polls := by
  refine h.exec hx hhas hopen hadd hstore (fun he => absurd he ha.2) hret
    (fun c ph hc => h.calling c ph (hcur ▸ hc)) ?_
  rintro hc ⟨cb, due, hp⟩
  rcases PollMgr.enters_exec hx hp with hp | he
  · exact h.idle (hcur ▸ hc) ⟨cb, due, hp⟩
  · exact ha.1 he

/-- The `add_callback` of the constructor begins. -/
theorem core_register (h : s.Core pipefd) (hk : s.refs k = some ⟨c, .making⟩)
    (ho : s.objs c = some o) (hx : s.mgr.Exec (.addWatch o.fd .rdonly c) m) :
    ((s.withMgr m).setRef k ⟨c, .adding .rdonly⟩).Core pipefd := by
  have hl := h.live_of_ref hk nofun ho
  have hok := h.conns c o hl
  have hid := h.named.listed k _ hk
  have hy := hok.young hk rfl (.inl rfl)
  have hcb : m.callbacks = s.mgr.callbacks ∧ m.mutex = some (.add o.fd c) := by
    cases hx with
    | addWatch _ _ => exact ⟨rfl, rfl⟩
    | loop ha _ _ _ => cases ha
  refine h.acted hl (touches_refl ho rfl) (refsStay_setRef h.named.nodup hid hk nofun rfl rfl) rfl
    (fun _ _ _ _ hne => (foreign_addWatch hne).still hx h.polls.removing)
    (fun _ _ _ hc => hc)
    (h.polls.manages hx rfl ⟨nofun, nofun⟩ (fun _ _ => id) rfl
      (fun fd _ _ he => by cases he; exact h.open_fd hl) nofun nofun) ?_
  have honly : ∀ k' r, ((s.withMgr m).setRef k ⟨c, .adding .rdonly⟩).refs k' = some r →
      r.conn = c → k' = k ∧ r = ⟨c, .adding .rdonly⟩ := by
    intro k' r hk' hc
    rcases setRef_refs_cases (s := s) hk' with hk' | ⟨hne, hk'⟩
    · exact hk'
    · exact absurd (hy.only k' r hk' hc) hne
  refine hok.alone (k := k) (p := .adding .rdonly) rfl rfl id
    (fun k' r hk' hc => .inl (honly k' r hk' hc)) (fun _ => ⟨?_, hcb.2⟩)
    (hok.refno.trans
      (count_rephase (q := .adding .rdonly) h.named.nodup hid hk nofun nofun c).symm)
    (fun ph hph => absurd hph (hy.away ph)) (fun hd => by cases hy.dead.symm.trans hd)
  refine ⟨hy.dead, hy.maker, ?_, hy.away, fun k' r hk' hc => (honly k' r hk' hc).1⟩
  show m.callbacks o.fd ≠ some c
  rw [hcb.1]
  exact hy.callback

/-- It ends. -/
theorem core_made (h : s.Core pipefd) (hk : s.refs k = some ⟨c, .adding .rdonly⟩)
    (hx : s.mgr.Exec .addStore m) : ((s.withMgr m).setRef k ⟨c, .made⟩).Core pipefd := by
  obtain ⟨fd, o, hl, -⟩ := h.named.target k _ hk nofun
  have hok := h.conns c o hl
  have hid := h.named.listed k _ hk
  obtain ⟨hy, hm⟩ : s.Young k c o ∧ s.mgr.mutex = some (.add o.fd c) := hok.refs k _ hk rfl nofun
  refine h.acted hl (touches_refl hl.1 rfl) (refsStay_setRef h.named.nodup hid hk nofun rfl rfl)
    rfl (fun _ _ hd _ _ => (foreign_addStore hm hd).still hx h.polls.removing)
    (fun _ _ _ hc => hc)
    (h.polls.manages hx rfl ⟨nofun, nofun⟩ (fun _ _ => id) rfl nofun
      (fun i d _ he => by cases hm.symm.trans he; exact ⟨o, hl, rfl⟩) nofun) ?_
  refine hok.alone (k := k) (p := .made) rfl rfl id (fun k' r hk' hc => ?_) (fun _ => hy.maker)
    (hok.refno.trans (count_rephase (q := .made) h.named.nodup hid hk nofun nofun c).symm)
    (fun ph hph => absurd hph (hy.away ph)) (fun hd => by cases hy.dead.symm.trans hd)
  rcases setRef_refs_cases (s := s) hk' with hk' | ⟨hne, hk'⟩
  · exact .inl hk'
  · exact absurd (hy.only k' r hk' hc) hne

/-- The `add_callback` of `send` begins. -/
theorem core_watch (h : s.Core pipefd) (hk : s.refs k = some ⟨c, .held⟩)
    (ho : s.objs c = some o) (hd : o.dead = false) (hlock : o.locked = false)
    (hx : s.mgr.Exec (.addWatch o.fd .wronly c) m) :
    (((s.withMgr m).setObj c { o with locked := true }).setRef k
      ⟨c, .adding .wronly⟩).Core pipefd := by
  have hl := h.live_of_ref hk nofun ho
  have hok := h.conns c o hl
  have hid := h.named.listed k _ hk
  have ht : s.Touches (((s.withMgr m).setObj c { o with locked := true }).setRef k
      ⟨c, .adding .wronly⟩) c o { o with locked := true } := ⟨ho, rfl, rfl, rfl⟩
  obtain ⟨hp, hm⟩ : m.poll = s.mgr.poll ∧ m.mutex = some (.add o.fd c) := by
    cases hx with
    | addWatch _ _ => exact ⟨rfl, rfl⟩
    | loop ha _ _ _ => cases ha
  have hentered : ∀ ph, s.current = some (c, ph) → ph = .entered := by
    intro ph hph
    have hat := (hok.current ph hph).2
    cases ph with
    | entered => rfl
    | locked | finished => cases hlock.symm.trans hat
    | deleting rdwr => cases hlock.symm.trans hat.1
  refine h.acted hl ht (refsStay_setRef h.named.nodup hid hk nofun rfl rfl) rfl
    (fun _ _ _ _ hne => (foreign_addWatch hne).still hx h.polls.removing)
    (fun _ _ _ hc => hc)
    (h.polls.manages hx rfl ⟨nofun, nofun⟩ (fun d fd => (ht.has d fd).mpr) rfl
      (fun fd _ _ he => by cases he; exact h.open_fd hl) nofun nofun) ?_
  refine hok.alone (k := k) (p := .adding .wronly) rfl rfl id (fun k' r hk' hc => ?_)
    (fun _ => ⟨hm, hd, rfl, hentered⟩)
    (hok.refno.trans
      (count_rephase (q := .adding .wronly) h.named.nodup hid hk nofun nofun c).symm)
    (fun ph hph => ?_) (fun hd' => by cases hd.symm.trans hd')
  · rcases setRef_refs_cases (s := s) hk' with hk' | ⟨-, hk'⟩
    · exact .inl hk'
    · refine .inr ⟨hk', hok.not_busy hk ⟨nofun, nofun⟩ (.inr hlock) hk' hc, fun hrm => ?_⟩
      cases hd.symm.trans (hok.refs k' _ hrm rfl nofun).1
  · obtain rfl := hentered ph hph
    obtain ⟨hin, -⟩ := hok.current _ hph
    refine ⟨?_, trivial⟩
    show ∃ cb due, m.poll = .inside cb due ∧ cb.fd = o.fd
    rw [hp]
    exact hin

/-- It ends. -/
theorem core_watched (h : s.Core pipefd) (hk : s.refs k = some ⟨c, .adding .wronly⟩)
    (ho : s.objs c = some o) (hx : s.mgr.Exec .addStore m) :
    (((s.withMgr m).setObj c { o with locked := false }).setRef k ⟨c, .held⟩).Core pipefd := by
  have hl := h.live_of_ref hk nofun ho
  have hok := h.conns c o hl
  have hid := h.named.listed k _ hk
  obtain ⟨hm, hd, -, hentered⟩ := hok.busy hk rfl (by rintro (he | he) <;> cases he) trivial
  have ht : s.Touches (((s.withMgr m).setObj c { o with locked := false }).setRef k
      ⟨c, .held⟩) c o { o with locked := false } := ⟨ho, rfl, rfl, rfl⟩
  have hp : m.poll = s.mgr.poll := by
    cases hx with
    | addStore _ _ => rfl
    | loop ha _ _ _ => cases ha
  refine h.acted hl ht (refsStay_setRef h.named.nodup hid hk nofun rfl rfl) rfl
    (fun _ _ hd _ _ => (foreign_addStore hm hd).still hx h.polls.removing)
    (fun _ _ _ hc => hc)
    (h.polls.manages hx rfl ⟨nofun, nofun⟩ (fun d fd => (ht.has d fd).mpr) rfl nofun
      (fun i d _ he => by cases hm.symm.trans he; exact ⟨o, hl, rfl⟩) nofun) ?_
  refine hok.alone (k := k) (p := .held) rfl rfl id (fun k' r hk' hc => ?_) (fun _ => trivial)
    (hok.refno.trans (count_rephase (q := .held) h.named.nodup hid hk nofun nofun c).symm)
    (fun ph hph => ?_) (fun hd' => by cases hd.symm.trans hd')
  · rcases setRef_refs_cases (s := s) hk' with hself | ⟨hne, hold⟩
    · exact .inl hself
    · refine .inr ⟨hold, fun hb => hne ?_, fun hrm => ?_⟩
      · -- one `add_callback` of `c` is under way at a time
        have hlate := hok.late hk (by rintro (he | he) <;> cases he) k' r hold hc
        obtain ⟨d, q⟩ := r
        cases hc
        cases q with
        | making => exact absurd (.inl rfl) hlate
        | adding f => exact hok.one k' k f .wronly hold hk
        | _ => exact hb.elim
      · cases hd.symm.trans (hok.refs k' _ hrm rfl nofun).1
  · obtain rfl := hentered ph hph
    obtain ⟨hin, -⟩ := hok.current _ hph
    refine ⟨?_, trivial⟩
    show ∃ cb due, m.poll = .inside cb due ∧ cb.fd = o.fd
    rw [hp]
    exact hin

/-- `block_remove_fd` begins. -/
theorem core_remove (h : s.Core pipefd) (hk : s.refs k = some ⟨c, .failed⟩)
    (ho : s.objs c = some o) (hx : s.mgr.Exec (.removeUnwatch k o.fd) m) :
    ((s.withMgr m).setRef k ⟨c, .removing⟩).Core pipefd := by
  have hl := h.live_of_ref hk nofun ho
  have hok := h.conns c o hl
  have hid := h.named.listed k _ hk
  have hd : o.dead = true := hok.refs k _ hk rfl nofun
  obtain ⟨hp, hm⟩ : m.poll = s.mgr.poll ∧ s.mgr.mutex = none := by
    cases hx with
    | removeUnwatch hm _ _ => exact ⟨rfl, hm⟩
    | loop ha _ _ _ => cases ha
  refine h.acted hl (touches_refl ho rfl) (refsStay_setRef h.named.nodup hid hk nofun rfl rfl) rfl
    (fun d p _ _ _ => Foreign.still (a := .removeUnwatch k o.fd)
      ⟨nofun, nofun, nofun, nofun, nofun⟩ hx h.polls.removing)
    (fun _ _ _ hc => hc)
    (h.polls.manages hx rfl ⟨nofun, nofun⟩ (fun _ _ => id) rfl nofun nofun nofun) ?_
  refine hok.alone (k := k) (p := .removing) rfl rfl id (fun k' r hk' hc => ?_)
    (fun _ => ⟨hd, PollMgr.retiring_removeUnwatch hx h.polls.removing⟩)
    (hok.refno.trans (count_rephase (q := .removing) h.named.nodup hid hk nofun nofun c).symm)
    (fun ph hph => ?_) (fun _ => .inl ⟨k, .inr (setRef_refs_self _ _ _)⟩)
  · rcases setRef_refs_cases (s := s) hk' with hself | ⟨-, hold⟩
    · exact .inl hself
    · exact .inr ⟨hold, hok.not_busy hk ⟨nofun, nofun⟩ (.inl hm) hold hc,
        fun _ hret => hret.exec hx h.polls.removing nofun nofun⟩
  · obtain ⟨hin, hat⟩ := hok.current ph hph
    refine ⟨?_, ?_⟩
    · show ∃ cb due, m.poll = .inside cb due ∧ cb.fd = o.fd
      rw [hp]
      exact hin
    · cases ph with
      | entered | locked | finished => exact hat
      | deleting rdwr => cases hd.symm.trans hat.2.1

/-- `block_remove_fd` returns. -/
theorem core_removed (h : s.Core pipefd) (hk : s.refs k = some ⟨c, .removing⟩)
    (hx : s.mgr.Exec (.removeReturn k) m) :
    ((s.withMgr m).setRef k ⟨c, .held⟩).Core pipefd := by
  obtain ⟨fd, o, hl, -⟩ := h.named.target k _ hk nofun
  have hok := h.conns c o hl
  have hid := h.named.listed k _ hk
  obtain ⟨hd, hret⟩ : o.dead = true ∧ s.mgr.Retiring k o.fd := hok.refs k _ hk rfl nofun
  obtain ⟨hclear, hmen, hp⟩ := PollMgr.clear_removeReturn (c := c) hret hx
  have hm : s.mgr.mutex = none := by
    cases hx with
    | removeReturn hm _ _ => exact hm
    | loop ha _ _ _ => cases ha
  have haway : ∀ ph, s.current ≠ some (c, ph) := by
    intro ph hph
    obtain ⟨⟨cb, due, hin, hfd⟩, -⟩ := hok.current ph hph
    rw [hin, ← hfd] at hmen
    exact hmen List.mem_cons_self
  refine h.acted hl (touches_refl hl.1 rfl) (refsStay_setRef h.named.nodup hid hk nofun rfl rfl)
    rfl (fun d p hd' _ _ => Foreign.still (a := .removeReturn k)
      ⟨nofun, nofun, nofun, fun k' hk' he => hd' ?_, nofun⟩ hx h.polls.removing)
    (fun _ _ _ hc => hc)
    (h.polls.manages hx rfl ⟨nofun, nofun⟩ (fun _ _ => id) rfl nofun nofun ?_) ?_
  · cases he
    cases hk.symm.trans hk'
    rfl
  · rintro t x he ht
    cases he
    obtain ⟨ph, hy, -⟩ := hret.remover
    cases ht.symm.trans hy
    exact hmen
  · refine hok.alone (k := k) (p := .held) rfl rfl id (fun k' r hk' hc => ?_) (fun _ => trivial)
      (hok.refno.trans (count_rephase (q := .held) h.named.nodup hid hk nofun nofun c).symm)
      (fun ph hph => absurd hph (haway ph))
      (fun _ => .inr ⟨hclear, fun ph hph => absurd hph (haway ph)⟩)
    rcases setRef_refs_cases (s := s) hk' with hself | ⟨hne, hold⟩
    · exact .inl hself
    · refine .inr ⟨hold, hok.not_busy hk ⟨nofun, nofun⟩ (.inl hm) hold hc, fun _ hret' => ?_⟩
      refine hret'.exec hx h.polls.removing nofun fun he => hne ?_
      cases he
      rfl

/-! ## The poll thread -/

/-- A step of `PollMgr` of which no connection is the cause. -/
theorem core_poll (h : s.Core pipefd) (ha : PollsOn a = true) (hx : s.mgr.Exec a m) :
    (s.withMgr m).Core pipefd where
  named := ⟨h.named.nodup, h.named.listed, h.named.named, h.named.target, h.named.fds,
    h.named.unique, h.named.pipe⟩
  polls := by
    cases a with
    | head | copy | select _ | check | removeWait =>
        exact h.polls.manages hx rfl ⟨nofun, nofun⟩ (fun _ _ => id) rfl nofun nofun nofun
    | _ => cases ha
  conns d p hp := by
    refine (h.conns d p hp).away (Foreign.still (a := a) ?_ hx h.polls.removing)
      (fun ph hph => .inl hph) (fun _ _ _ => Iff.rfl) rfl
    cases a with
    | head | copy | select _ | check | removeWait => exact ⟨nofun, nofun, nofun, nofun, nofun⟩
    | _ => cases ha

/-- The poll thread enters a callback. -/
theorem core_call (h : s.Core pipefd) {cb : Callback} {due : List Callback}
    (hp : s.mgr.poll = .checked cb due) (hx : s.mgr.Exec .call m) :
    ((s.withMgr m).withCurrent
      ((s.mgr.callbacks cb.fd).map fun c => (c, .entered))).Core pipefd := by
  have hin : m.poll = .inside cb due := by
    cases hx with
    | call hp' =>
        cases hp.symm.trans hp'
        rfl
    | loop ha _ _ _ => cases ha
  have hcur : ∀ c ph, (s.mgr.callbacks cb.fd).map (fun c => (c, CbPhase.entered)) =
      some (c, ph) → s.mgr.callbacks cb.fd = some c ∧ ph = .entered := by
    intro c ph he
    obtain ⟨d, hd, he⟩ := Option.map_eq_some_iff.mp he
    cases he
    exact ⟨hd, rfl⟩
  refine ⟨⟨h.named.nodup, h.named.listed, h.named.named, h.named.target, h.named.fds,
    h.named.unique, h.named.pipe⟩, ?_, fun d p hl => ?_⟩
  · refine h.polls.exec hx (fun _ _ => id) rfl nofun nofun nofun nofun (fun c ph hc => ?_)
      (fun hc => ?_)
    · exact ⟨cb.fd, h.polls.callbacks _ _ (hcur c ph hc).1⟩
    · exact absurd (Option.map_eq_none_iff.mp hc) (h.polls.checked cb due hp)
  · refine (h.conns d p hl).away (Foreign.still (a := .call) ⟨nofun, nofun, nofun, nofun, nofun⟩
      hx h.polls.removing) (fun ph hph => ?_) (fun _ _ _ => Iff.rfl) rfl
    obtain ⟨hcb, rfl⟩ := hcur d ph hph
    obtain ⟨q, hq, hfd⟩ := h.polls.callbacks _ _ hcb
    cases hl.1.symm.trans hq.1
    exact .inr ⟨rfl, hfd ▸ hcb, cb, due, hin, hfd.symm⟩

/-- It takes `m_`. -/
theorem core_lock (h : s.Core pipefd) (hc : s.current = some (c, .entered))
    (ho : s.objs c = some o) (hlock : o.locked = false) :
    ((s.setObj c { o with locked := true }).withCurrent (some (c, .locked))).Core pipefd := by
  have hl := h.live_of_current hc ho
  have hok := h.conns c o hl
  have ht : s.Touches ((s.setObj c { o with locked := true }).withCurrent (some (c, .locked))) c o
      { o with locked := true } := ⟨ho, rfl, rfl, rfl⟩
  refine h.acted hl ht (refsStay_refl rfl rfl) rfl (fun d p _ _ _ => still_refl s d p)
    (fun d ph hd he => ?_)
    (h.polls.same rfl (fun d fd => (ht.has d fd).mpr) subset_rfl (fun d ph he => ?_) nofun) ?_
  · cases he
    exact absurd rfl hd
  · cases he
    exact ⟨_, hc⟩
  · refine hok.alone (k := 0) (p := .dropped) rfl rfl id
      (fun k' r hk' hr => .inr ⟨hk', hok.not_busy_of_current hc (.inr hlock) hk' hr, fun _ => id⟩)
      (fun hne => absurd rfl hne) hok.refno (fun ph he => ?_) (fun hd => ?_)
    · cases he
      exact ⟨(hok.current _ hc).1, rfl⟩
    · rcases hok.death hd with hdying | ⟨-, hfin⟩
      · exact .inl hdying
      · cases hfin _ hc

/-- The `del_callback` of a callback begins. -/
theorem core_unwatch (h : s.Core pipefd) {rdwr : Bool} (hc : s.current = some (c, .locked))
    (ho : s.objs c = some o) (hd : o.dead = false)
    (hx : s.mgr.Exec (.delUnwatch o.fd (if rdwr then .rdwr else .wronly)) m) :
    ((s.withMgr m).withCurrent (some (c, .deleting rdwr))).Core pipefd := by
  have hl := h.live_of_current hc ho
  have hok := h.conns c o hl
  obtain ⟨hin, hlock⟩ := hok.current _ hc
  obtain ⟨hp, gone, hm, hgone⟩ : m.poll = s.mgr.poll ∧ ∃ gone,
      m.mutex = some (.del o.fd gone) ∧ (rdwr = true → gone = true ∧ ¬ m.aio.Watched o.fd) := by
    generalize hflag : (if rdwr then PollFlag.rdwr else .wronly) = flag at hx
    cases hx with
    | @delUnwatch _ _ aio gone _ hu =>
        refine ⟨rfl, gone, rfl, ?_⟩
        rintro rfl
        cases hflag
        have hno := PollMgr.not_watched_unwatchFd hu
        obtain ⟨-, -, -, -, -, -, hiff⟩ := SelectAio.unwatchFd_inv hu
        exact ⟨hiff.mpr hno, hno⟩
    | loop ha _ _ _ => cases ha
  refine h.acted hl (touches_refl ho rfl) (refsStay_refl rfl rfl) rfl
    (fun d p _ _ _ => Foreign.still (a := .delUnwatch o.fd (if rdwr then .rdwr else .wronly))
      ⟨nofun, nofun, nofun, nofun, nofun⟩ hx h.polls.removing)
    (fun d ph hd he => ?_)
    (h.polls.exec hx (fun _ _ => id) rfl nofun nofun nofun nofun (fun d ph he => ?_) nofun) ?_
  · cases he
    exact absurd rfl hd
  · cases he
    exact ⟨o.fd, o, hl, rfl⟩
  · refine hok.alone (k := 0) (p := .dropped) rfl rfl id (fun k' r hk' hr => .inr ⟨hk',
        hok.not_busy_of_current hc (.inl nofun) hk' hr, fun hrm => ?_⟩)
      (fun hne => absurd rfl hne) hok.refno (fun ph he => ?_)
      (fun hd' => by cases hd.symm.trans hd')
    · cases hd.symm.trans (hok.refs k' _ hrm rfl nofun).1
    · cases he
      refine ⟨?_, hlock, hd, gone, hm, hgone⟩
      show ∃ cb due, m.poll = .inside cb due ∧ cb.fd = o.fd
      rw [hp]
      exact hin

/-- It ends. -/
theorem core_deleted (h : s.Core pipefd) {rdwr : Bool} (hc : s.current = some (c, .deleting rdwr))
    (ho : s.objs c = some o) (hx : s.mgr.Exec .delStore m) :
    (((s.withMgr m).setObj c { o with dead := rdwr || o.dead }).withCurrent
      (some (c, .finished))).Core pipefd := by
  have hl := h.live_of_current hc ho
  have hok := h.conns c o hl
  obtain ⟨⟨cb, due, hin, hfd⟩, hlock, hd, gone, hm, hgone⟩ := hok.current _ hc
  have ht : s.Touches (((s.withMgr m).setObj c { o with dead := rdwr || o.dead }).withCurrent
      (some (c, .finished))) c o { o with dead := rdwr || o.dead } := ⟨ho, rfl, rfl, rfl⟩
  obtain rfl : m = s.mgr.delStore o.fd gone := by
    cases hx with
    | delStore hm' =>
        cases hm.symm.trans hm'
        rfl
    | loop ha _ _ _ => cases ha
  have hp : (s.mgr.delStore o.fd gone).poll = s.mgr.poll := by
    cases gone <;> rfl
  refine h.acted hl ht (refsStay_refl rfl rfl) rfl
    (fun d p _ _ hne => Foreign.still (a := .delStore) ⟨nofun, nofun, fun _ g he => hne ?_, nofun,
      nofun⟩ hx h.polls.removing)
    (fun d ph hd he => ?_)
    (h.polls.exec hx (fun d fd => (ht.has d fd).mpr) rfl nofun nofun
      (fun _ => ⟨cb, due, hin⟩) nofun (fun d ph he => ?_) nofun) ?_
  · exact (Section.del.inj (Option.some.inj (hm.symm.trans he))).1.symm
  · cases he
    exact absurd rfl hd
  · cases he
    exact ⟨o.fd, o, hl, rfl⟩
  · refine hok.alone (k := 0) (p := .dropped) rfl rfl (fun hd' => by cases hd.symm.trans hd')
      (fun k' r hk' hr => .inr ⟨hk', hok.not_busy_of_current hc (.inl nofun) hk' hr,
        fun hrm => ?_⟩)
      (fun hne => absurd rfl hne) hok.refno (fun ph he => ?_) (fun hd' => .inr ⟨?_, ?_⟩)
    · cases hd.symm.trans (hok.refs k' _ hrm rfl nofun).1
    · cases he
      refine ⟨⟨cb, due, ?_, hfd⟩, hlock⟩
      exact hp.trans hin
    · have hrdwr : rdwr = true := by simpa [hd] using hd'
      obtain ⟨rfl, hno⟩ := hgone hrdwr
      refine ⟨?_, hno, ?_⟩
      · show Function.update s.mgr.callbacks o.fd none o.fd ≠ some c
        simp
      · show ¬ s.mgr.poll.Copied o.fd
        rw [hin]
        exact id
    · intro ph he
      cases he
      rfl

/-- The end of a callback. -/
theorem core_return (h : s.Core pipefd) {ph : CbPhase} (hc : s.current = some (c, ph))
    (hph : ph = .locked ∨ ph = .finished) (ho : s.objs c = some o)
    (hx : s.mgr.Exec .callReturn m) :
    (((s.withMgr m).setObj c { o with locked := false }).withCurrent none).Core pipefd := by
  have hl := h.live_of_current hc ho
  have hok := h.conns c o hl
  have ht : s.Touches (((s.withMgr m).setObj c { o with locked := false }).withCurrent none) c o
      { o with locked := false } := ⟨ho, rfl, rfl, rfl⟩
  have hne : ph ≠ .entered := by rcases hph with rfl | rfl <;> exact nofun
  refine h.acted hl ht (refsStay_refl rfl rfl) rfl
    (fun d p hd _ _ => Foreign.still (a := .callReturn) ⟨nofun, nofun, nofun, nofun,
      fun _ ph' he => hd ?_⟩ hx h.polls.removing)
    nofun
    (h.polls.exec hx (fun d fd => (ht.has d fd).mpr) rfl nofun nofun nofun nofun nofun
      (fun _ => ?_)) ?_
  · cases hc.symm.trans he
    rfl
  · cases hx with
    | callReturn _ => exact PollMgr.not_calling_looping _
    | loop ha _ _ _ => cases ha
  · refine hok.alone (k := 0) (p := .dropped) rfl rfl id
      (fun k' r hk' hr => .inr ⟨hk', hok.not_busy_of_current hc (.inl hne) hk' hr,
        fun _ hret => hret.exec hx h.polls.removing nofun nofun⟩)
      (fun hne => absurd rfl hne) hok.refno nofun (fun hd => ?_)
    rcases hok.death hd with hdying | ⟨hclear, -⟩
    · exact .inl hdying
    · exact .inr ⟨hclear.exec hx nofun nofun, nofun⟩

/-- A failed `VERIFY`. -/
theorem core_stop (h : s.Core pipefd) : s.stop.Core pipefd where
  named := ⟨h.named.nodup, h.named.listed, h.named.named, h.named.target, h.named.fds,
    h.named.unique, h.named.pipe⟩
  polls := ⟨h.polls.removing.frame rfl rfl rfl fun _ _ => id, h.polls.callbacks,
    h.polls.watched, h.polls.copied, h.polls.checked, h.polls.calling, h.polls.idle⟩
  conns d p hp := (h.conns d p hp).away
    ⟨id, id, fun _ => id, id, fun _ _ hr => ⟨hr.remover, hr.unwatched, hr.woken⟩,
      fun hc => ⟨hc.callback, hc.unwatched, hc.uncopied⟩, fun _ _ _ _ => id⟩
    (fun _ hph => .inl hph) (fun _ _ _ => Iff.rfl) rfl

end Process

end RpcLock.Connection
