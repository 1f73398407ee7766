import Mathlib.Data.Option.Basic
import Mathlib.Data.List.Basic
import Mathlib.Logic.Function.Basic
import Mathlib.Logic.Relation

/-!
# Labelled machines and their runs

A machine has an initial state and a partial step function.  The label of a
step carries every choice the environment makes, so a step is a function and a
run is a list of labels.

`Reachable` allows every step.  `ReachedVia G` allows only the steps that meet the
condition `G`, a relation between the state before a step and its label.  `Reaches`
and `ReachesVia G` start at an arbitrary state.  Each comes with its induction rule,
so that an invariant is proved by one lemma per step.

`ReachedVia.map` carries runs of one machine to runs of another: a step is sent
to a step or to nothing.  `recording` keeps what the steps show, and
`recording_run` says that this is a run of a more abstract machine.  `family`
puts a machine at each index.
-/

/-- A labelled machine.  `next s a = none` when the label is not enabled. -/
structure Machine (σ : Type*) (α : Type*) where
  /-- The initial state. -/
  init : σ
  /-- The state after a step. -/
  next : σ → α → Option σ

namespace Machine

variable {σ τ α β : Type*}

/-! ## Runs -/

/-- The state a list of labels leads to. -/
def run (M : Machine σ α) : σ → List α → Option σ
  | s, [] => some s
  | s, a :: as =>
      match M.next s a with
      | none => none
      | some s' => M.run s' as

/-- The states reached by steps that all meet `G`. -/
inductive ReachedVia (M : Machine σ α) (G : σ → α → Prop) : σ → Prop where
  | init : ReachedVia M G M.init
  | step {s s' : σ} {a : α} :
      ReachedVia M G s → G s a → M.next s a = some s' → ReachedVia M G s'

/-- A step that meets `G`. -/
def StepVia (M : Machine σ α) (G : σ → α → Prop) (s s' : σ) : Prop :=
  ∃ a, G s a ∧ M.next s a = some s'

/-- `s'` is reached from `s` by steps that all meet `G`. -/
def ReachesVia (M : Machine σ α) (G : σ → α → Prop) : σ → σ → Prop :=
  Relation.ReflTransGen (M.StepVia G)

/-- The reachable states. -/
def Reachable (M : Machine σ α) (s : σ) : Prop := M.ReachedVia (fun _ _ => True) s

/-- `s'` is reached from `s`. -/
def Reaches (M : Machine σ α) (s s' : σ) : Prop := M.ReachesVia (fun _ _ => True) s s'

variable {M : Machine σ α} {G H : σ → α → Prop} {P : σ → Prop}

@[simp] theorem run_nil (s : σ) : M.run s [] = some s := rfl

theorem run_cons {s s' : σ} {a : α} (h : M.next s a = some s') (as : List α) :
    M.run s (a :: as) = M.run s' as := by
  simp [run, h]

theorem run_cons_inv {s t : σ} {a : α} {as : List α} (h : M.run s (a :: as) = some t) :
    ∃ s', M.next s a = some s' ∧ M.run s' as = some t := by
  cases hn : M.next s a with
  | none => simp [run, hn] at h
  | some s' => exact ⟨s', rfl, by rw [← run_cons hn]; exact h⟩

theorem run_append {s s' : σ} {as : List α} (h : M.run s as = some s') (bs : List α) :
    M.run s (as ++ bs) = M.run s' bs := by
  induction as generalizing s with
  | nil =>
      cases h
      rfl
  | cons a as ih =>
      obtain ⟨s₁, hn, hr⟩ := run_cons_inv h
      rw [List.cons_append, run_cons hn]
      exact ih hr

/-- A count that every step raises by one is the length of the run. -/
theorem run_length {s t : σ} {as : List α} (f : σ → Nat)
    (hstep : ∀ s s' a, M.next s a = some s' → f s' = f s + 1) (h : M.run s as = some t) :
    f t = f s + as.length := by
  induction as generalizing s with
  | nil =>
      cases h
      rfl
  | cons a as ih =>
      obtain ⟨s', hn, hr⟩ := run_cons_inv h
      rw [ih hr, hstep _ _ _ hn, List.length_cons]
      omega

/-! ## Induction rules -/

/-- An invariant of the steps that meet `G` holds in every state they reach. -/
theorem ReachedVia.invariant {s : σ} (h : M.ReachedVia G s) (hinit : P M.init)
    (hstep : ∀ s s' a, P s → G s a → M.next s a = some s' → P s') : P s := by
  induction h with
  | init => exact hinit
  | step _ hg hn ih => exact hstep _ _ _ ih hg hn

theorem ReachedVia.mono {s : σ} (h : M.ReachedVia G s) (hGH : ∀ s a, G s a → H s a) :
    M.ReachedVia H s := by
  induction h with
  | init => exact .init
  | step _ hg hn ih => exact .step ih (hGH _ _ hg) hn

/-- A condition may be replaced by one that it gives in the states reached. -/
theorem ReachedVia.imp {s : σ} (h : M.ReachedVia G s)
    (hGH : ∀ s a, M.ReachedVia G s → M.ReachedVia H s → G s a → H s a) : M.ReachedVia H s := by
  induction h with
  | init => exact .init
  | step hs hg hn ih => exact .step ih (hGH _ _ hs ih hg) hn

theorem ReachedVia.reachable {s : σ} (h : M.ReachedVia G s) : M.Reachable s :=
  h.mono fun _ _ _ => trivial

theorem Reachable.init : M.Reachable M.init := ReachedVia.init

theorem Reachable.step {s s' : σ} {a : α} (h : M.Reachable s) (hn : M.next s a = some s') :
    M.Reachable s' := ReachedVia.step h trivial hn

/-- An invariant of every step holds in every reachable state. -/
theorem Reachable.invariant {s : σ} (h : M.Reachable s) (hinit : P M.init)
    (hstep : ∀ s s' a, P s → M.next s a = some s' → P s') : P s :=
  ReachedVia.invariant h hinit fun s s' a hp _ hn => hstep s s' a hp hn

/-! ## Runs from any state -/

theorem ReachesVia.refl {s : σ} : M.ReachesVia G s s := Relation.ReflTransGen.refl

theorem ReachesVia.step {s t u : σ} {a : α} (h : M.ReachesVia G s t) (hg : G t a)
    (hn : M.next t a = some u) : M.ReachesVia G s u := Relation.ReflTransGen.tail h ⟨a, hg, hn⟩

theorem ReachesVia.head {s s' t : σ} {a : α} (hg : G s a) (hn : M.next s a = some s')
    (h : M.ReachesVia G s' t) : M.ReachesVia G s t := Relation.ReflTransGen.head ⟨a, hg, hn⟩ h

theorem ReachesVia.trans {s s' t : σ} (h : M.ReachesVia G s s') (h' : M.ReachesVia G s' t) :
    M.ReachesVia G s t := Relation.ReflTransGen.trans h h'

/-- What every step that meets `G` preserves, every run of such steps preserves. -/
theorem ReachesVia.invariant {s t : σ} (h : M.ReachesVia G s t) (hs : P s)
    (hstep : ∀ s s' a, P s → G s a → M.next s a = some s' → P s') : P t := by
  induction h with
  | refl => exact hs
  | tail _ hst ih =>
      obtain ⟨a, hg, hn⟩ := hst
      exact hstep _ _ a ih hg hn

/-- A goal is reached when, short of it, some step lowers a measure. -/
theorem ReachesVia.of_measure {Q : σ → Prop} (m : σ → Nat)
    (hstep : ∀ s, P s → ¬ Q s →
      ∃ a s', G s a ∧ M.next s a = some s' ∧ P s' ∧ m s' < m s)
    {s : σ} (hs : P s) : ∃ t, M.ReachesVia G s t ∧ Q t := by
  induction hm : m s using Nat.strongRecOn generalizing s with
  | _ k ih =>
      by_cases hq : Q s
      · exact ⟨s, .refl, hq⟩
      · obtain ⟨a, s', hg, hn, hs', hlt⟩ := hstep s hs hq
        obtain ⟨t, ht, hqt⟩ := ih (m s') (hm ▸ hlt) hs' rfl
        exact ⟨t, ht.head hg hn, hqt⟩

theorem Reaches.refl (s : σ) : M.Reaches s s := ReachesVia.refl

theorem Reaches.single {s s' : σ} {a : α} (hn : M.next s a = some s') : M.Reaches s s' :=
  ReachesVia.step .refl trivial hn

theorem Reaches.trans {s s' t : σ} (h : M.Reaches s s') (h' : M.Reaches s' t) : M.Reaches s t :=
  ReachesVia.trans h h'

/-- What every step preserves, every run preserves. -/
theorem Reaches.invariant {s t : σ} (h : M.Reaches s t) (hs : P s)
    (hstep : ∀ s s' a, P s → M.next s a = some s' → P s') : P t :=
  ReachesVia.invariant h hs fun s s' a hp _ hn => hstep s s' a hp hn

theorem Reaches.of_measure {Q : σ → Prop} (m : σ → Nat)
    (hstep : ∀ s, P s → ¬ Q s → ∃ a s', M.next s a = some s' ∧ P s' ∧ m s' < m s)
    {s : σ} (hs : P s) : ∃ t, M.Reaches s t ∧ Q t :=
  ReachesVia.of_measure m (fun s hp hq => by
    obtain ⟨a, s', hrest⟩ := hstep s hp hq
    exact ⟨a, s', trivial, hrest⟩) hs

/-! ## Runs that can be computed -/

theorem ReachedVia.run {s t : σ} {as : List α} (h : M.ReachedVia (fun _ _ => True) s)
    (hr : M.run s as = some t) : M.Reachable t := by
  induction as generalizing s with
  | nil =>
      cases hr
      exact h
  | cons a as ih =>
      obtain ⟨s', hn, hr'⟩ := run_cons_inv hr
      exact ih (.step h trivial hn) hr'

/-- A computed run exhibits a reachable state with a computed property. -/
theorem exists_reachable_of_run {p : σ → Bool} (as : List α)
    (h : (M.run M.init as).any p = true) : ∃ s, M.Reachable s ∧ p s = true := by
  cases hr : M.run M.init as with
  | none => simp [hr] at h
  | some s => exact ⟨s, ReachedVia.run .init hr, by simpa [hr] using h⟩

/-- The machine that takes only the steps that meet `G`. -/
def guarded (M : Machine σ α) (G : σ → α → Prop) [∀ s a, Decidable (G s a)] : Machine σ α where
  init := M.init
  next s a := if G s a then M.next s a else none

theorem guarded_inv [∀ s a, Decidable (G s a)] {s s' : σ} {a : α}
    (h : (M.guarded G).next s a = some s') : G s a ∧ M.next s a = some s' := by
  by_cases hg : G s a
  · exact ⟨hg, by simpa [guarded, hg] using h⟩
  · simp [guarded, hg] at h

theorem Reachable.of_guarded [∀ s a, Decidable (G s a)] {s : σ}
    (h : (M.guarded G).Reachable s) : M.ReachedVia G s := by
  induction h with
  | init => exact .init
  | step _ _ hn ih =>
      obtain ⟨hg, hn⟩ := guarded_inv hn
      exact .step ih hg hn

/-- The same for the steps that meet `G`. -/
theorem exists_reachedVia_of_run [∀ s a, Decidable (G s a)] {p : σ → Bool} (as : List α)
    (h : ((M.guarded G).run M.init as).any p = true) : ∃ s, M.ReachedVia G s ∧ p s = true := by
  obtain ⟨s, hs, hp⟩ := @exists_reachable_of_run σ α (M.guarded G) p as h
  exact ⟨s, hs.of_guarded, hp⟩

/-! ## Maps between machines -/

/-- A state map that sends every allowed step to an allowed step, or to no step
at all, sends reached states to reached states. -/
theorem ReachedVia.map {N : Machine τ β} {K : τ → β → Prop} (f : σ → τ)
    (hinit : f M.init = N.init)
    (hstep : ∀ s s' a, G s a → M.next s a = some s' →
      f s' = f s ∨ ∃ b, K (f s) b ∧ N.next (f s) b = some (f s'))
    {s : σ} (h : M.ReachedVia G s) : N.ReachedVia K (f s) := by
  induction h with
  | init =>
      rw [hinit]
      exact .init
  | step _ hg hn ih =>
      rcases hstep _ _ _ hg hn with he | ⟨b, hk, hb⟩
      · rw [he]
        exact ih
      · exact .step ih hk hb

/-! ## Observations -/

/-- The machine with the observations of its steps so far. -/
def recording (M : Machine σ α) (obs : σ → α → List β) : Machine (σ × List β) α where
  init := (M.init, [])
  next p a := (M.next p.1 a).map fun s' => (s', p.2 ++ obs p.1 a)

/-- Where every step shows a run of `N` between the images of its states, so
does every run. -/
theorem recording_run {N : Machine τ β} {obs : σ → α → List β} (f : σ → τ)
    (hinit : f M.init = N.init)
    (hstep : ∀ s s' a, M.next s a = some s' → N.run (f s) (obs s a) = some (f s'))
    {p : σ × List β} (h : (M.recording obs).Reachable p) :
    N.run N.init p.2 = some (f p.1) := by
  refine h.invariant (P := fun p => N.run N.init p.2 = some (f p.1)) ?_ ?_
  · exact congrArg some hinit.symm
  · rintro ⟨s, bs⟩ p' a hp hn
    obtain ⟨s', hs', rfl⟩ := Option.map_eq_some_iff.mp hn
    exact (run_append hp _).trans (hstep s s' a hs')

/-- A run with its observations is a run. -/
theorem ReachedVia.of_recording {obs : σ → α → List β} {p : σ × List β}
    (h : (M.recording obs).ReachedVia (fun p a => G p.1 a) p) : M.ReachedVia G p.1 :=
  h.map Prod.fst rfl fun p p' a hg hn => by
    obtain ⟨s', hs', rfl⟩ := Option.map_eq_some_iff.mp hn
    exact .inr ⟨a, hg, hs'⟩

/-! ## Families -/

section

variable {ι : Type*} [DecidableEq ι]

/-- A copy of the machine at each index.  A label names its copy. -/
def family (ι : Type*) [DecidableEq ι] (M : Machine σ α) : Machine (ι → σ) (ι × α) where
  init _ := M.init
  next f p := (M.next (f p.1) p.2).map (Function.update f p.1)

/-- The labels of one copy. -/
def labelsOf (i : ι) (as : List (ι × α)) : List α :=
  as.filterMap fun p => if p.1 = i then some p.2 else none

/-- A run of the family is a run of each copy. -/
theorem run_family {f g : ι → σ} {as : List (ι × α)} (h : (M.family ι).run f as = some g)
    (i : ι) : M.run (f i) (labelsOf i as) = some (g i) := by
  induction as generalizing f with
  | nil =>
      cases h
      rfl
  | cons p as ih =>
      obtain ⟨f', hn, hr⟩ := run_cons_inv h
      obtain ⟨s, hs, rfl⟩ := Option.map_eq_some_iff.mp hn
      have hrest := ih hr
      by_cases hi : p.1 = i
      · subst hi
        rw [Function.update_self] at hrest
        simpa [labelsOf, run, hs] using hrest
      · rw [Function.update_of_ne (Ne.symm hi)] at hrest
        simpa [labelsOf, hi] using hrest

end

end Machine
