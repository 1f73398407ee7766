import RpcLock.Connection.DeletionSteps

/-!
# Runs of a process

Every reachable state satisfies `Core`.  `Table` is the part of the invariant that
`tcpsconn` adds: an entry of `conns_` stands for the reference that came with the
connection.  The descriptor of a connection that is not deleted belongs to it alone,
so `conns_[ch->channo()] = ch` finds no other entry.

The `VERIFY`s that `Stops` lists do not all fail: `Core` excludes the ones about
references and descriptors.
-/

namespace RpcLock.Connection

namespace Process

variable {s s' : Process} {a : ProcessAct} {c k fd pipefd : Nat} {o o' : ConnObj}

theorem core_init (pipefd : Nat) : (init pipefd).Core pipefd := by
  have hnone : ∀ c fd, ¬ (init pipefd).Has c fd := by
    rintro c fd ⟨o, ⟨ho, -⟩, -⟩
    cases ho
  refine ⟨?named, ?polls, fun c o ho => absurd ⟨o, ho, rfl⟩ (hnone c o.fd)⟩
  case named =>
    refine ⟨List.nodup_nil, nofun, nofun, nofun, fun fd => ?_, fun c d fd hc => ?_,
      fun c => hnone c _⟩
    · show fd ∈ ({pipefd} : Finset Nat) ↔ _
      rw [Finset.mem_singleton]
      exact ⟨.inl, fun h => h.resolve_right fun ⟨c, hc⟩ => hnone c fd hc⟩
    · exact absurd hc (hnone c fd)
  case polls =>
    refine ⟨PollMgr.removing_init pipefd, nofun, fun fd hw => ?_, nofun, nofun, nofun, ?_⟩
    · rcases hw with hw | hw
      · exact hw
      · exact absurd hw (Finset.notMem_empty fd)
    · rintro - ⟨cb, due, hp⟩
      cases hp

/-- `Core` does not look at `conns_`. -/
theorem Core.withConns (h : s.Core pipefd) (l : List (Nat × Nat)) (p : Option (Nat × Nat)) :
    (s.withConns l p).Core pipefd where
  named := ⟨h.named.nodup, h.named.listed, h.named.named, h.named.target, h.named.fds,
    h.named.unique, h.named.pipe⟩
  polls := h.polls.same rfl (fun _ _ => id) subset_rfl (fun _ ph hc => ⟨ph, hc⟩) id
  conns d q hq := (h.conns d q hq).away (still_refl s d q) (fun _ hph => .inl hph)
    (fun _ _ _ => Iff.rfl) rfl

theorem core_giveBack (h : s.Core pipefd) {p : RefPhase} (hk : s.refs k = some ⟨c, p⟩)
    (hp : p = .held ∨ p = .kept) (ho : s.objs c = some o) (hg : s.GiveBack k c o s') :
    s'.Core pipefd := by
  cases hg with
  | keep _ _ => exact core_keep h hk hp ho
  | delete hone hlock hdead => exact core_delete h hk hp ho hone hlock hdead

theorem core_step (h : s.Core pipefd) (hs : s.Step a s') : s'.Core pipefd := by
  cases hs with
  | stop _ => exact core_stop h
  | new hid hc hfd => exact core_created h hid hc hfd
  | register hk ho hx => exact core_register h hk ho hx
  | watch hk ho hd hlock hx => exact core_watch h hk ho hd hlock hx
  | made hk hx => exact core_made h hk hx
  | watched hk ho hx => exact core_watched h hk ho hx
  | take hk => exact core_rephase h hk (.inl rfl) (.inl rfl)
  | store hk _ _ => exact (core_rephase h hk (.inl rfl) (.inr ⟨rfl, rfl⟩)).withConns _ _
  | pick _ _ _ _ _ => exact h.withConns _ _
  | collect _ hk ho hg => exact (core_giveBack h hk (.inr rfl) ho hg).withConns _ _
  | release hk _ _ => exact (core_rephase h hk (.inr rfl) (.inl rfl)).withConns _ _
  | incref hk ho hid =>
      have hl := h.live_of_ref hk nofun ho
      refine core_shared h hl hid ((h.conns _ _ hl).late hk ?_)
      rintro (he | he) <;> cases he
  | retain hc _ ho _ hid =>
      have hl := h.live_of_current hc ho
      exact core_shared h hl hid ((h.conns _ _ hl).late_of_current hc)
  | decref hk ho hg => exact core_giveBack h hk (.inl rfl) ho hg
  | fail hk ho _ hlock => exact core_fail h hk ho hlock
  | remove hk ho hx => exact core_remove h hk ho hx
  | removed hk hx => exact core_removed h hk hx
  | poll ha hx => exact core_poll h ha hx
  | call hp hx => exact core_call h hp hx
  | lock hc ho hlock => exact core_lock h hc ho hlock
  | delete hc ho hd hx => exact core_unwatch h hc ho hd hx
  | deleted hc ho hx => exact core_deleted h hc ho hx
  | «return» hc hph ho hx => exact core_return h hc hph ho hx

theorem next_inv (h : s.next a = some s') : s.mgr.aborted = false ∧ s.Step a s' := by
  unfold next at h
  split at h
  · cases h
  · next hab => exact ⟨by simpa using hab, step_inv h⟩

theorem core_reachable (h : (processMachine pipefd).Reachable s) : s.Core pipefd :=
  h.invariant (core_init pipefd) fun _ _ _ hc hn => core_step hc (next_inv hn).2

/-! ## Steps -/

/-- A change of another connection. -/
theorem objs_update {d : Nat} {q q' : ConnObj} (hd : s.objs d = some q) (hfd : q'.fd = q.fd)
    (hdead : q.dead = true → q'.dead = true) (ho : s.objs c = some o) :
    ∃ o', Function.update s.objs d (some q') c = some o' ∧ o'.fd = o.fd ∧
      (o.dead = true → o'.dead = true) := by
  by_cases hc : c = d
  · subst hc
    cases hd.symm.trans ho
    exact ⟨q', Function.update_self .., hfd, hdead⟩
  · exact ⟨o, (Function.update_of_ne hc ..).trans ho, rfl, id⟩

/-- A connection keeps its descriptor, and stays dead. -/
theorem step_obj (hs : s.Step a s') (ho : s.objs c = some o) :
    ∃ o', s'.objs c = some o' ∧ o'.fd = o.fd ∧ (o.dead = true → o'.dead = true) := by
  have hsame : ∃ o', s.objs c = some o' ∧ o'.fd = o.fd ∧ (o.dead = true → o'.dead = true) :=
    ⟨o, ho, rfl, id⟩
  have hgive : ∀ {k d q s'}, s.objs d = some q → s.GiveBack k d q s' →
      ∃ o', s'.objs c = some o' ∧ o'.fd = o.fd ∧ (o.dead = true → o'.dead = true) := by
    intro k d q s' hd hg
    cases hg with
    | keep _ _ | delete _ _ _ => exact objs_update hd rfl id ho
  cases hs with
  | new _ hc _ =>
      refine ⟨o, (Function.update_of_ne ?_ ..).trans ho, rfl, id⟩
      rintro rfl
      cases hc.symm.trans ho
  | watch _ hd _ _ _ | watched _ hd _ | incref _ hd _ | retain _ _ hd _ _ | lock _ hd _
  | «return» _ _ hd _ => exact objs_update hd rfl id ho
  | fail _ hd _ _ => exact objs_update hd rfl (fun _ => rfl) ho
  | @deleted _ _ rdwr _ _ hd _ =>
      exact objs_update hd rfl (fun hq => by rw [hq, Bool.or_true]) ho
  | collect _ _ hd hg =>
      have hobj := hgive hd hg
      exact hobj
  | decref _ hd hg => exact hgive hd hg
  | stop _ | register _ _ _ | made _ _ | take _ | store _ _ _ | pick _ _ _ _ _ | release _ _ _
  | remove _ _ _ | removed _ _ | poll _ _ | call _ _ | delete _ _ _ _ => exact hsame

/-- A reference was there before, or it is a new one, to a new connection, beside
another one, or to a connection that lives. -/
theorem step_ref (hs : s.Step a s') {r : Ref} (hk : s'.refs k = some r)
    (hr : r.phase ≠ .dropped) :
    (∃ p, s.refs k = some ⟨r.conn, p⟩ ∧ p ≠ .dropped) ∨ s.objs r.conn = none ∨
      (∃ k', s.refs k' = some ⟨r.conn, .held⟩) ∨
      ∃ o, s.objs r.conn = some o ∧ o.dead = false := by
  have hset : ∀ {k' d p q}, s.refs k' = some ⟨d, p⟩ → p ≠ .dropped →
      Function.update s.refs k' (some ⟨d, q⟩) k = some r →
      ∃ p, s.refs k = some ⟨r.conn, p⟩ ∧ p ≠ .dropped := by
    intro k' d p q hk' hp hk
    rcases setRef_refs_cases (s := s) hk with ⟨rfl, rfl⟩ | ⟨-, hk⟩
    · exact ⟨p, hk', hp⟩
    · exact ⟨r.phase, hk, hr⟩
  have hgive : ∀ {k' d q s' p}, s.refs k' = some ⟨d, p⟩ → p ≠ .dropped →
      s.GiveBack k' d q s' → s'.refs k = some r →
      ∃ p, s.refs k = some ⟨r.conn, p⟩ ∧ p ≠ .dropped := by
    intro k' d q s' p hk' hp hg hk
    cases hg with
    | keep _ _ | delete _ _ _ => exact hset hk' hp hk
  cases hs with
  | new _ hc _ =>
      rcases setRef_refs_cases (s := s) hk with ⟨-, rfl⟩ | ⟨-, hk⟩
      · exact .inr (.inl hc)
      · exact .inl ⟨r.phase, hk, hr⟩
  | incref hk' _ _ =>
      rcases setRef_refs_cases (s := s) hk with ⟨-, rfl⟩ | ⟨-, hk⟩
      · exact .inr (.inr (.inl ⟨_, hk'⟩))
      · exact .inl ⟨r.phase, hk, hr⟩
  | retain _ _ ho hd _ =>
      rcases setRef_refs_cases (s := s) hk with ⟨-, rfl⟩ | ⟨-, hk⟩
      · exact .inr (.inr (.inr ⟨_, ho, hd⟩))
      · exact .inl ⟨r.phase, hk, hr⟩
  | register hk' _ _ | watch hk' _ _ _ _ | made hk' _ | watched hk' _ _ | take hk'
  | store hk' _ _ | release hk' _ _ | fail hk' _ _ _ | remove hk' _ _ | removed hk' _ =>
      exact .inl (hset hk' nofun hk)
  | collect _ hk' _ hg => exact .inl (hgive hk' nofun hg hk)
  | decref hk' _ hg => exact .inl (hgive hk' nofun hg hk)
  | stop _ | pick _ _ _ _ _ | poll _ _ | call _ _ | lock _ _ _ | delete _ _ _ _ | deleted _ _ _
  | «return» _ _ _ _ => exact .inl ⟨r.phase, hk, hr⟩

theorem step_has (hs : s.Step a s') (h' : s'.Core pipefd) {p : RefPhase}
    (hk : s'.refs k = some ⟨c, p⟩) (hp : p ≠ .dropped) (hc : s.Has c fd) : s'.Has c fd := by
  obtain ⟨o, hl, rfl⟩ := hc
  obtain ⟨o', ho', hfd, -⟩ := step_obj hs hl.1
  exact ⟨o', h'.live_of_ref hk hp ho', hfd⟩

/-! ## `conns_` -/

/-- The connection `c` is dead, and `k` is the one reference to it. -/
structure Sole (s : Process) (k c : Nat) : Prop where
  dead : ∃ o, s.objs c = some o ∧ o.dead = true
  only : ∀ k' r, s.refs k' = some r → r.conn = c → r.phase ≠ .dropped → k' = k

/-- What `tcpsconn` keeps. -/
structure Table (s : Process) : Prop where
  entry : ∀ fd k, (fd, k) ∈ s.conns → ∃ c, s.refs k = some ⟨c, .kept⟩ ∧ s.Has c fd
  kept : ∀ k c, s.refs k = some ⟨c, .kept⟩ → ∃ fd, (fd, k) ∈ s.conns
  keys : (s.conns.map Prod.fst).Nodup
  collecting : ∀ fd k, s.collecting = some (fd, k) → (fd, k) ∈ s.conns
  sole : ∀ fd k c, s.collecting = some (fd, k) → s.refs k = some ⟨c, .kept⟩ → s.Sole k c

theorem table_init (pipefd : Nat) : (init pipefd).Table :=
  ⟨nofun, nofun, List.nodup_nil, nofun, nofun⟩

/-- Nobody can make a reference to a connection that is about to be collected. -/
theorem Sole.step (h : s.Sole k c) (hk : s.refs k = some ⟨c, .kept⟩) (hs : s.Step a s') :
    s'.Sole k c := by
  obtain ⟨o, ho, hd⟩ := h.dead
  obtain ⟨o', ho', -, hd'⟩ := step_obj hs ho
  refine ⟨⟨o', ho', hd' hd⟩, ?_⟩
  rintro k' r hk' rfl hr
  rcases step_ref hs hk' hr with ⟨p, hp, hpd⟩ | hnew | ⟨k₁, h₁⟩ | ⟨q, hq, hlive⟩
  · exact h.only k' _ hp rfl hpd
  · cases ho.symm.trans hnew
  · obtain rfl := h.only k₁ _ h₁ rfl nofun
    cases hk.symm.trans h₁
  · cases ho.symm.trans hq
    cases hd.symm.trans hlive

theorem Sole.refno (h : s.Sole k c) (hc : s.Core pipefd) (hk : s.refs k = some ⟨c, .kept⟩)
    (ho : s.objs c = some o) : o.refno = 1 := by
  have hl := hc.live_of_ref hk nofun ho
  have hcount := count_drop hc.named.nodup (hc.named.listed k _ hk) hk nofun c
  have hzero : (s.setRef k ⟨c, .dropped⟩).count c = 0 := by
    refine count_eq_zero fun k' r hk' hrc => ?_
    rcases setRef_refs_cases hk' with ⟨-, rfl⟩ | ⟨hne, hold⟩
    · rfl
    · by_contra hrp
      exact hne (h.only k' r hold hrc hrp)
  rw [if_pos rfl, hzero] at hcount
  exact (hc.conns c o hl).refno.trans hcount.symm

theorem Table.key_inj (h : s.Table) {k' : Nat} (hk : (fd, k) ∈ s.conns)
    (hk' : (fd, k') ∈ s.conns) : k = k' :=
  congrArg Prod.snd (List.inj_on_of_nodup_map h.keys hk hk' rfl)

theorem mem_others {e : Nat × Nat} : e ∈ s.others fd ↔ e ∈ s.conns ∧ e.1 ≠ fd := by
  rw [others, List.mem_filter, decide_eq_true_iff]

/-- A step that leaves `conns_` alone. -/
theorem Table.calm (h : s.Table) (hs : s.Step a s') (h' : s'.Core pipefd)
    (hconns : s'.conns = s.conns) (hcoll : s'.collecting = s.collecting)
    (hkept : ∀ k c, s'.refs k = some ⟨c, .kept⟩ ↔ s.refs k = some ⟨c, .kept⟩) : s'.Table where
  entry fd k he := by
    obtain ⟨c, hk, hhas⟩ := h.entry fd k (hconns ▸ he)
    have hk' := (hkept k c).mpr hk
    exact ⟨c, hk', step_has hs h' hk' nofun hhas⟩
  kept k c hk := by
    rw [hconns]
    exact h.kept k c ((hkept k c).mp hk)
  keys := by rw [hconns]; exact h.keys
  collecting fd k he := by
    rw [hconns]
    exact h.collecting fd k (hcoll ▸ he)
  sole fd k c he hk := by
    have hk₁ := (hkept k c).mp hk
    exact (h.sole fd k c (hcoll ▸ he) hk₁).step hk₁ hs

/-- The entry of `k` goes. -/
theorem Table.erase (h : s.Table) (hs : s.Step a s') (h' : s'.Core pipefd)
    (hmem : (fd, k) ∈ s.conns) (hconns : s'.conns = s.others fd) (hcoll : s'.collecting = none)
    (hkept : ∀ k' c, s'.refs k' = some ⟨c, .kept⟩ ↔ k' ≠ k ∧ s.refs k' = some ⟨c, .kept⟩) :
    s'.Table where
  entry fd' k' he := by
    rw [hconns] at he
    obtain ⟨he, hfd⟩ := mem_others.mp he
    obtain ⟨c, hk, hhas⟩ := h.entry fd' k' he
    have hne : k' ≠ k := by
      rintro rfl
      obtain ⟨c', hk', q, hq, rfl⟩ := h.entry fd k' hmem
      obtain ⟨q', hq', rfl⟩ := hhas
      cases hk.symm.trans hk'
      cases hq.1.symm.trans hq'.1
      exact hfd rfl
    have hk' := (hkept k' c).mpr ⟨hne, hk⟩
    exact ⟨c, hk', step_has hs h' hk' nofun hhas⟩
  kept k' c hk := by
    obtain ⟨hne, hk⟩ := (hkept k' c).mp hk
    obtain ⟨fd', he⟩ := h.kept k' c hk
    refine ⟨fd', ?_⟩
    rw [hconns]
    refine mem_others.mpr ⟨he, ?_⟩
    rintro rfl
    exact hne (h.key_inj he hmem)
  keys := by
    rw [hconns]
    exact h.keys.sublist (List.filter_sublist.map Prod.fst)
  collecting fd' k' he := by
    rw [hcoll] at he
    cases he
  sole fd' k' c he := by
    rw [hcoll] at he
    cases he

/-- `operator[]` finds no entry to replace. -/
theorem Table.others_eq (h : s.Table) (hc : s.Core pipefd) (hk : s.refs k = some ⟨c, .made⟩)
    (ho : s.objs c = some o) : s.others o.fd = s.conns := by
  refine List.filter_eq_self.mpr ?_
  rintro ⟨fd, k'⟩ he
  refine decide_eq_true ?_
  rintro rfl
  obtain ⟨c', hk', hhas⟩ := h.entry _ k' he
  have hl := hc.live_of_ref hk nofun ho
  obtain rfl := hc.named.unique c' c o.fd hhas ⟨o, hl, rfl⟩
  have hok := hc.conns c' o hl
  have hmk : o.maker = k := hok.refs k _ hk rfl nofun
  have hmk' : o.maker = k' := hok.refs k' _ hk' rfl nofun
  obtain rfl := hmk.symm.trans hmk'
  cases hk.symm.trans hk'

theorem kept_setRef {p q : RefPhase} (hk : s.refs k = some ⟨c, p⟩) (hp : p ≠ .kept)
    (hq : q ≠ .kept) (k' c' : Nat) :
    Function.update s.refs k (some ⟨c, q⟩) k' = some ⟨c', .kept⟩ ↔
      s.refs k' = some ⟨c', .kept⟩ := by
  by_cases hkk : k' = k
  · subst hkk
    rw [Function.update_self, hk]
    constructor
    · rintro ⟨⟩
      exact absurd rfl hq
    · rintro ⟨⟩
      exact absurd rfl hp
  · rw [Function.update_of_ne hkk]

theorem kept_release {q : RefPhase} (hq : q ≠ .kept) (k' c' : Nat) :
    Function.update s.refs k (some ⟨c, q⟩) k' = some ⟨c', .kept⟩ ↔
      k' ≠ k ∧ s.refs k' = some ⟨c', .kept⟩ := by
  by_cases hkk : k' = k
  · subst hkk
    rw [Function.update_self]
    constructor
    · rintro ⟨⟩
      exact absurd rfl hq
    · exact fun h => absurd rfl h.1
  · rw [Function.update_of_ne hkk]
    exact ⟨fun h => ⟨hkk, h⟩, And.right⟩

/-- A reference that was not there does not change what is kept. -/
theorem kept_new (hn : s.Named pipefd) (hid : k ∉ s.ids) {q : RefPhase} (hq : q ≠ .kept)
    (k' c' : Nat) : Function.update s.refs k (some ⟨c, q⟩) k' = some ⟨c', .kept⟩ ↔
      s.refs k' = some ⟨c', .kept⟩ := by
  rw [kept_release hq]
  refine ⟨And.right, fun hk => ⟨?_, hk⟩⟩
  rintro rfl
  exact hid (hn.listed _ _ hk)

theorem table_step (h : s.Table) (hc : s.Core pipefd) (hs : s.Step a s') : s'.Table := by
  have h' := core_step hc hs
  have hsame : ∀ k c, s.refs k = some ⟨c, .kept⟩ ↔ s.refs k = some ⟨c, .kept⟩ :=
    fun _ _ => Iff.rfl
  have hcalm := h.calm hs h'
  have herase {fd k : Nat} (he : (fd, k) ∈ s.conns) := h.erase hs h' he
  cases hs with
  | new hid _ _ | incref _ _ hid | retain _ _ _ _ hid =>
      exact hcalm rfl rfl (kept_new hc.named hid nofun)
  | register hk _ _ | watch hk _ _ _ _ | made hk _ | watched hk _ _ | take hk | fail hk _ _ _
  | remove hk _ _ | removed hk _ => exact hcalm rfl rfl (kept_setRef hk nofun nofun)
  | decref hk _ hg =>
      cases hg with
      | keep _ _ | delete _ _ _ => exact hcalm rfl rfl (kept_setRef hk nofun nofun)
  | stop _ | poll _ _ | call _ _ | lock _ _ _ | delete _ _ _ _ | deleted _ _ _
  | «return» _ _ _ _ => exact hcalm rfl rfl hsame
  | collect he hk _ hg =>
      cases hg with
      | keep _ _ | delete _ _ _ =>
          exact herase (h.collecting _ _ he) rfl rfl (kept_release nofun)
  | release hk he hcoll => exact herase he rfl hcoll (kept_release nofun)
  | pick hk he ho hd hone =>
      refine ⟨h.entry, h.kept, h.keys, ?_, ?_⟩
      · rintro fd' k' ⟨⟩
        exact he
      · rintro fd' k' c' ⟨⟩ hk'
        cases hk.symm.trans hk'
        have hl := hc.live_of_ref hk nofun ho
        refine ⟨⟨_, ho, hd⟩, fun k' r hr hrc hrp => ?_⟩
        by_contra hne
        exact hrp ((hc.conns _ _ hl).sole hc.named hone hk nofun hne hr hrc)
  | @store k c o hk ho hcoll =>
      have hl := hc.live_of_ref hk nofun ho
      have hothers := h.others_eq hc hk ho
      refine ⟨fun fd k' he => ?_, fun k' c' hk' => ?_, ?_, fun fd k' he => ?_,
        fun fd k' c' he => ?_⟩
      · rcases List.mem_cons.mp he with he | he
        · cases he
          exact ⟨c, setRef_refs_self _ _ _, o, hl, rfl⟩
        · obtain ⟨c', hk', hhas⟩ := h.entry fd k' (mem_others.mp he).1
          refine ⟨c', (setRef_refs_ne s _ ?_).trans hk', hhas⟩
          rintro rfl
          cases hk.symm.trans hk'
      · rcases setRef_refs_cases (s := s) hk' with ⟨rfl, he⟩ | ⟨-, hk'⟩
        · cases he
          exact ⟨o.fd, List.mem_cons_self⟩
        · obtain ⟨fd, he⟩ := h.kept k' c' hk'
          exact ⟨fd, List.mem_cons_of_mem _ (hothers ▸ he)⟩
      · refine List.nodup_cons.mpr ⟨fun hm => ?_, h.keys.sublist (List.filter_sublist.map _)⟩
        obtain ⟨e, he, hfd⟩ := List.mem_map.mp hm
        exact (mem_others.mp he).2 hfd
      · cases hcoll.symm.trans he
      · cases hcoll.symm.trans he

theorem table_reachable (h : (processMachine pipefd).Reachable s) : s.Table :=
  (h.invariant (P := fun s => s.Core pipefd ∧ s.Table) ⟨core_init pipefd, table_init pipefd⟩
    fun _ _ _ hp hn =>
      ⟨core_step hp.1 (next_inv hn).2, table_step hp.2 hp.1 (next_inv hn).2⟩).2

/-! ## `VERIFY` -/

theorem step_stops (hs : s.Step a s') (hlive : s.mgr.aborted = false)
    (hab : s'.mgr.aborted = true) : s.Stops a := by
  have hsame {s₁ : Process} (hm : s₁.mgr = s.mgr) (hab : s₁.mgr.aborted = true) : s.Stops a := by
    rw [hm, hlive] at hab
    cases hab
  have hexec {b : PollMgrAct} {m : PollMgr} (hx : s.mgr.Exec b m) (hab : m.aborted = true) :
      s.Stops a := by
    rw [PollMgr.aborted_exec hx, hlive] at hab
    cases hab
  cases hs with
  | stop hst => exact hst
  | new _ _ _ | take _ | store _ _ _ | pick _ _ _ _ _ | release _ _ _ | incref _ _ _
  | retain _ _ _ _ _ | fail _ _ _ _ | lock _ _ _ => exact hsame rfl hab
  | collect _ _ _ hg | decref _ _ hg =>
      cases hg with
      | keep _ _ | delete _ _ _ => exact hsame rfl hab
  | register _ _ hx | watch _ _ _ _ hx | made _ hx | watched _ _ hx | remove _ _ hx
  | removed _ hx | poll _ hx | call _ hx | delete _ _ _ hx | deleted _ _ hx
  | «return» _ _ _ hx => exact hexec hx hab

/-- The owner of an `add_callback` has the mutex. -/
theorem ConnOk.adding {flag : PollFlag} (h : s.ConnOk c o)
    (hk : s.refs k = some ⟨c, .adding flag⟩) : s.mgr.mutex = some (.add o.fd c) := by
  have hok := h.refs k _ hk rfl nofun
  cases flag with
  | rdonly => exact hok.2
  | none | wronly | rdwr | mask => exact hok.1

theorem count_pos (h : s.Named pipefd) {p : RefPhase} (hk : s.refs k = some ⟨c, p⟩)
    (hp : p ≠ .dropped) : 0 < s.count c :=
  tableCount_pos (h.listed k _ hk) hk (decide_eq_true ⟨rfl, hp⟩)

/-- The reasons for which a process stops: a descriptor is too high, `select` fails, or
`write_cb` finds the connection dead. -/
def StopReason (s : Process) (a : ProcessAct) : Prop :=
  (∃ k c p o, (a = .register k ∨ a = .watch k) ∧ s.refs k = some ⟨c, p⟩ ∧
    s.objs c = some o ∧ maxPollFds ≤ o.fd) ∨
  (∃ r, a = .poll (.select r) ∧ (r = .failed ∨ s.mgr.aio.piped = 0)) ∨
  (a = .lock ∧ ∃ c o fd due, s.current = some (c, .entered) ∧
    s.mgr.poll = .inside (.write fd) due ∧ s.objs c = some o ∧ o.dead = true)

theorem stops_reason (h : s.Core pipefd) (hs : s.Stops a) : s.StopReason a := by
  cases hs with
  | full ha hk ho hfd => exact .inl ⟨_, _, _, _, ha, hk, ho, Nat.le_of_not_lt hfd⟩
  | select hr => exact .inr (.inl ⟨_, rfl, hr⟩)
  | taken hk hf =>
      obtain ⟨fd, o, hl, -⟩ := h.named.target _ _ hk nofun
      have hm := (h.conns _ o hl).adding hk
      cases hf with
      | taken hm' hcb hne =>
          cases hm.symm.trans hm'
          exact absurd (h.named.unique _ _ _ (h.polls.callbacks _ _ hcb) ⟨o, hl, rfl⟩) hne
  | null hf =>
      cases hf with
      | null hp hcb => exact absurd hcb (h.polls.checked _ _ hp)
  | refno hk hp ho h0 =>
      have hrefno := (h.conns _ _ (h.live_of_ref hk hp ho)).refno
      rw [h0] at hrefno
      exact absurd hrefno (Nat.ne_of_lt (count_pos h.named hk hp))
  | wrongFd hc hp ho hfd =>
      have hl := h.live_of_current hc ho
      obtain ⟨⟨cb, due, hp', hfd'⟩, -⟩ := (h.conns _ _ hl).current _ hc
      cases hp.symm.trans hp'
      exact absurd hfd'.symm hfd
  | @deadWrite c o cb due hc hp ho hw hd =>
      cases cb with
      | read fd => cases hw
      | write fd => exact .inr (.inr ⟨rfl, c, o, fd, due, hc, hp, ho, hd⟩)

theorem StopReason.of_conns (h : s.StopReason a) (ha : a = .collect ∨ a = .store k) : False := by
  rcases ha with rfl | rfl <;>
    rcases h with ⟨_, _, _, _, he | he, _⟩ | ⟨_, he, _⟩ | ⟨he, _⟩ <;> cases he

/-- Whoever can still use a connection finds it: a reference, `callbacks_`, and the poll
thread in a callback.  `PollMgr` and `select` have open descriptors only, and each is
that of one connection.  No `VERIFY` about references or descriptors fails. -/
theorem connections_safe (h : (processMachine pipefd).Reachable s) :
    (∀ k c p, s.refs k = some ⟨c, p⟩ → p ≠ .dropped → ∃ o, s.Live c o) ∧
    (∀ c o, s.Live c o → o.refno = s.count c) ∧
    (∀ fd c, s.mgr.callbacks fd = some c → s.Has c fd) ∧
    (∀ cb due, s.mgr.poll = .inside cb due → ∃ c ph, s.current = some (c, ph) ∧ s.Has c cb.fd) ∧
    (∀ fd, s.mgr.aio.Watched fd ∨ s.mgr.poll.Copied fd → fd ∈ s.openFds) ∧
    (∀ fd, fd ∈ s.openFds ↔ fd = pipefd ∨ ∃ c, s.Has c fd) ∧
    (∀ c d fd, s.Has c fd → s.Has d fd → c = d) ∧
    ∀ a s', s.next a = some s' → s'.mgr.aborted = true → s.StopReason a := by
  have hc := core_reachable h
  refine ⟨fun k c p hk hp => ?_, fun c o hl => (hc.conns c o hl).refno, hc.polls.callbacks,
    fun cb due hp => ?_, fun fd hw => hw.elim (hc.polls.watched fd) (hc.polls.copied fd),
    hc.named.fds, hc.named.unique, fun a s' hn hab => ?_⟩
  · obtain ⟨fd, o, hl, -⟩ := hc.named.target k _ hk hp
    exact ⟨o, hl⟩
  · cases hcur : s.current with
    | none => exact absurd ⟨cb, due, hp⟩ (hc.polls.idle hcur)
    | some p =>
        obtain ⟨c, ph⟩ := p
        obtain ⟨fd, o, hl, -⟩ := hc.polls.calling c ph hcur
        obtain ⟨⟨cb', due', hp', hfd⟩, -⟩ := (hc.conns c o hl).current ph hcur
        cases hp.symm.trans hp'
        exact ⟨c, ph, rfl, o, hl, hfd.symm⟩
  · obtain ⟨hlive, hs⟩ := next_inv hn
    exact stops_reason hc (step_stops hs hlive hab)

/-- A client closes its connection, and the server accepts the next one. -/
def deadAccepted : List ProcessAct :=
  [.new 0 0 5, .register 0, .added 0, .store 0,
    .poll .head, .poll .copy, .poll (.select (.ready {5} ∅)), .poll .check, .call, .lock,
    .delete true, .deleted, .return, .poll .check,
    .new 1 1 6, .register 1, .added 1, .pick 5 0]

/-- The descriptor of the first connection comes back, and is ready to be read. -/
def descriptorAgain : List ProcessAct :=
  deadAccepted ++ [.collect, .store 1, .new 2 2 5, .register 2, .added 2, .store 2,
    .poll .head, .poll .copy, .poll (.select (.ready {5} ∅)), .poll .check, .call]

theorem connections_safe_descriptorAgain : ∃ s, (processMachine 3).Reachable s ∧
    s.objs 0 = some ⟨5, true, 0, false, true, 0⟩ ∧ s.mgr.poll = .inside (.read 5) [] ∧
    ∃ c ph, s.current = some (c, ph) ∧ s.Has c 5 := by
  obtain ⟨s, hs, hp⟩ := @Machine.exists_reachable_of_run _ _ (processMachine 3)
    (fun s => decide (s.objs 0 = some ⟨5, true, 0, false, true, 0⟩ ∧
      s.mgr.poll = .inside (.read 5) [])) descriptorAgain (by decide +kernel)
  obtain ⟨ho, hpoll⟩ := of_decide_eq_true hp
  obtain ⟨-, -, -, hinside, -⟩ := connections_safe hs
  exact ⟨s, hs, ho, hpoll, hinside _ _ hpoll⟩

/-- `conns_` has the connections that were accepted, each under its own descriptor.
`process_accept` replaces no entry, and what it collects is deleted. -/
theorem accepted_collected (h : (processMachine pipefd).Reachable s) :
    (∀ fd k, (fd, k) ∈ s.conns → ∃ c, s.refs k = some ⟨c, .kept⟩ ∧ s.Has c fd) ∧
    (∀ k c, s.refs k = some ⟨c, .kept⟩ → ∃ fd, (fd, k) ∈ s.conns) ∧
    (s.conns.map Prod.fst).Nodup ∧
    (∀ k s', s.next (.store k) = some s' → ∃ fd, s'.conns = (fd, k) :: s.conns) ∧
    ∀ s', s.next .collect = some s' → ∃ fd k c, (fd, k) ∈ s.conns ∧
      s.refs k = some ⟨c, .kept⟩ ∧ s.Has c fd ∧ (∀ o, ¬ s'.Live c o) ∧
      s'.openFds = s.openFds.erase fd ∧
      ∀ e, e ∈ s'.conns ↔ e ∈ s.conns ∧ e ≠ (fd, k) := by
  have hc := core_reachable h
  have ht := table_reachable h
  refine ⟨ht.entry, ht.kept, ht.keys, fun k s' hn => ?_, fun s' hn => ?_⟩
  · cases (next_inv hn).2 with
    | stop hst => exact ((stops_reason hc hst).of_conns (.inr rfl)).elim
    | store hk ho _ => exact ⟨_, congrArg _ (ht.others_eq hc hk ho)⟩
  · cases (next_inv hn).2 with
    | stop hst => exact ((stops_reason hc hst).of_conns (k := 0) (.inl rfl)).elim
    | @collect fd k c o s₁ he hk ho hg =>
        have hmem := ht.collecting fd k he
        have hsole := ht.sole fd k c he hk
        obtain ⟨c', hk', q, hq, hfd⟩ := ht.entry fd k hmem
        cases hk.symm.trans hk'
        cases ho.symm.trans hq.1
        obtain ⟨q, hq', hdead⟩ := hsole.dead
        cases ho.symm.trans hq'
        cases hg with
        | keep _ hlive => cases hdead.symm.trans (hlive (hsole.refno hc hk ho))
        | delete _ _ _ =>
            refine ⟨fd, k, c, hmem, hk, ⟨o, hq, hfd⟩, ?_, by rw [← hfd]; rfl, fun e => ?_⟩
            · rintro o' ⟨ho', hdel⟩
              cases (Function.update_self ..).symm.trans ho'
              cases hdel
            · refine mem_others.trans (and_congr_right fun hin => not_congr ⟨fun hfst => ?_, ?_⟩)
              · obtain ⟨fd', k'⟩ := e
                cases hfst
                rw [ht.key_inj hin hmem]
              · rintro rfl
                rfl

theorem accepted_collected_deadAccepted : ∃ s s', (processMachine 3).Reachable s ∧
    s.next .collect = some s' ∧
    ∃ fd k c, (fd, k) ∈ s.conns ∧ s.Has c fd ∧ ∀ o, ¬ s'.Live c o := by
  obtain ⟨s, hs, hp⟩ := @Machine.exists_reachable_of_run _ _ (processMachine 3)
    (fun s => (s.next .collect).isSome) deadAccepted (by decide +kernel)
  obtain ⟨s', hn⟩ := Option.isSome_iff_exists.mp hp
  obtain ⟨-, -, -, -, hcollect⟩ := accepted_collected hs
  obtain ⟨fd, k, c, hmem, -, hhas, hgone, -⟩ := hcollect s' hn
  exact ⟨s, s', hs, hn, fd, k, c, hmem, hhas, hgone⟩

end Process

end RpcLock.Connection
