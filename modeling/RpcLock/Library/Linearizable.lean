import Mathlib.Data.List.Nodup

/-!
# Linearizable histories

Operations on an object are called and return, any number of them at a time.  A
history lists the calls and the returns that are seen.  It is linearizable when
every operation that returned, and some of those that have not, can be put in a
sequence in which the object takes one operation after the other, returns what
was seen, and no operation stands before one that had returned when it was called.

`Linearization O H L` says that `L` is such a sequence for `H`.  The three rules
follow an object that keeps a log of what took effect: a call and a return are
added to the history, and an operation is added to the log, when the object
answers it in the state the log leaves and it is between its call and its return.
-/

/-- `x` stands before `y`. -/
def List.Before {α : Type*} (l : List α) (x y : α) : Prop := [x, y].Sublist l

theorem List.before_append_singleton {α : Type*} {l : List α} {x y z : α} :
    (l ++ [z]).Before x y ↔ l.Before x y ∨ x ∈ l ∧ y = z := by
  unfold List.Before
  constructor
  · intro h
    obtain ⟨l₁, l₂, he, h₁, h₂⟩ := List.sublist_append_iff.mp h
    cases List.sublist_singleton.mp h₂ with
    | inl h0 =>
        subst h0
        rw [List.append_nil] at he
        exact .inl (he ▸ h₁)
    | inr hz =>
        subst hz
        obtain ⟨rfl, hy⟩ := List.append_inj' (show [x] ++ [y] = l₁ ++ [z] from he) rfl
        exact .inr ⟨List.singleton_sublist.mp h₁, by simpa using hy⟩
  · rintro (h | ⟨hx, rfl⟩)
    · exact h.trans (List.sublist_append_left l [z])
    · exact (List.singleton_sublist.mpr hx).append (List.Sublist.refl [y])

/-- An object that takes one operation after the other. -/
structure SeqObject (σ α β : Type*) where
  init : σ
  apply : σ → α → σ × β

/-- An operation was called, or it returned. -/
inductive CallEvent (ι α β : Type*) where
  | call (i : ι) (a : α)
  | ret (i : ι) (b : β)
deriving DecidableEq, Repr

/-- An operation that took effect, with its result. -/
structure Applied (ι α β : Type*) where
  id : ι
  arg : α
  val : β
deriving DecidableEq, Repr

variable {σ ι α β : Type*}

namespace SeqObject

/-- The state after a log. -/
def after (O : SeqObject σ α β) (L : List (Applied ι α β)) : σ :=
  L.foldl (fun s e => (O.apply s e.arg).1) O.init

/-- The object took the operations of the log in this order and returned what
stands there. -/
inductive Legal (O : SeqObject σ α β) : List (Applied ι α β) → Prop where
  | nil : Legal O []
  | snoc {L : List (Applied ι α β)} {e : Applied ι α β} :
      Legal O L → (O.apply (O.after L) e.arg).2 = e.val → Legal O (L ++ [e])

/-- The log is a linearization of the history. -/
structure Linearization (O : SeqObject σ α β) (H : List (CallEvent ι α β))
    (L : List (Applied ι α β)) : Prop where
  legal : O.Legal L
  /-- No operation takes effect twice. -/
  nodup : (L.map Applied.id).Nodup
  called : ∀ e ∈ L, .call e.id e.arg ∈ H
  returned : ∀ i b, .ret i b ∈ H → ∃ e ∈ L, e.id = i ∧ e.val = b
  /-- What returned before another was called took effect before it. -/
  realTime : ∀ e ∈ L, ∀ f ∈ L, ∀ b a, H.Before (.ret e.id b) (.call f.id a) → L.Before e f

end SeqObject

/-- Every operation is called once, and returns at most once, after its call. -/
structure WellFormedHistory (H : List (CallEvent ι α β)) : Prop where
  calls : ∀ H₁ H₂ i a, H = H₁ ++ .call i a :: H₂ → ∀ a', .call i a' ∉ H₁
  rets : ∀ H₁ H₂ i b, H = H₁ ++ .ret i b :: H₂ →
    (∃ a, .call i a ∈ H₁) ∧ ∀ b', .ret i b' ∉ H₁

namespace SeqObject.Linearization

variable {O : SeqObject σ α β} {H : List (CallEvent ι α β)} {L : List (Applied ι α β)}

theorem empty (O : SeqObject σ α β) : O.Linearization ([] : List (CallEvent ι α β)) [] where
  legal := .nil
  nodup := List.nodup_nil
  called e he := by cases he
  returned i b h := by cases h
  realTime e he := by cases he

/-- An operation is called. -/
theorem call (h : O.Linearization H L) {i : ι} (a : α) (hfresh : ∀ e ∈ L, e.id ≠ i) :
    O.Linearization (H ++ [.call i a]) L where
  legal := h.legal
  nodup := h.nodup
  called e he := List.mem_append_left _ (h.called e he)
  returned j b hj := by
    rcases List.mem_append.mp hj with hj | hj
    · exact h.returned j b hj
    · simp at hj
  realTime e he f hf b a' hb := by
    rcases List.before_append_singleton.mp hb with hb | ⟨-, hcall⟩
    · exact h.realTime e he f hf b a' hb
    · cases hcall
      exact absurd rfl (hfresh f hf)

/-- An operation that took effect returns its result. -/
theorem ret (h : O.Linearization H L) {e : Applied ι α β} (he : e ∈ L) :
    O.Linearization (H ++ [.ret e.id e.val]) L where
  legal := h.legal
  nodup := h.nodup
  called f hf := List.mem_append_left _ (h.called f hf)
  returned j b hj := by
    rcases List.mem_append.mp hj with hj | hj
    · exact h.returned j b hj
    · rw [List.mem_singleton] at hj
      cases hj
      exact ⟨e, he, rfl, rfl⟩
  realTime f hf g hg b a hb := by
    rcases List.before_append_singleton.mp hb with hb | ⟨-, hcall⟩
    · exact h.realTime f hf g hg b a hb
    · cases hcall

/-- An operation that was called takes effect.  It has not returned. -/
theorem apply (h : O.Linearization H L) {e : Applied ι α β}
    (hval : (O.apply (O.after L) e.arg).2 = e.val) (hcall : .call e.id e.arg ∈ H)
    (hfresh : ∀ f ∈ L, f.id ≠ e.id) : O.Linearization H (L ++ [e]) where
  legal := .snoc h.legal hval
  nodup := by
    rw [List.map_append, List.map_singleton, ← List.concat_eq_append]
    refine h.nodup.concat fun hmem => ?_
    obtain ⟨f, hf, hid⟩ := List.mem_map.mp hmem
    exact hfresh f hf hid
  called f hf := by
    rcases List.mem_append.mp hf with hf | hf
    · exact h.called f hf
    · rw [List.mem_singleton] at hf
      subst hf
      exact hcall
  returned j b hj := by
    obtain ⟨f, hf, hrest⟩ := h.returned j b hj
    exact ⟨f, List.mem_append_left _ hf, hrest⟩
  realTime f hf g hg b a hb := by
    rw [List.before_append_singleton]
    have hret : .ret f.id b ∈ H := hb.subset List.mem_cons_self
    have hfL : f ∈ L := by
      rcases List.mem_append.mp hf with hf | hf
      · exact hf
      · rw [List.mem_singleton] at hf
        subst hf
        obtain ⟨f', hf', hid, -⟩ := h.returned _ b hret
        exact absurd hid (hfresh f' hf')
    rcases List.mem_append.mp hg with hg | hg
    · exact .inl (h.realTime f hfL g hg b a hb)
    · exact .inr ⟨hfL, List.mem_singleton.mp hg⟩

end SeqObject.Linearization

namespace WellFormedHistory

variable {H : List (CallEvent ι α β)}

theorem empty : WellFormedHistory ([] : List (CallEvent ι α β)) where
  calls H₁ H₂ i a h := by simp at h
  rets H₁ H₂ i b h := by simp at h

/-- Where the last event is added, an event is the last one or one before. -/
theorem split_append {γ : Type*} {l l₁ l₂ : List γ} {x y : γ} (h : l ++ [y] = l₁ ++ x :: l₂) :
    l₁ = l ∧ x = y ∨ ∃ l₃, l = l₁ ++ x :: l₃ := by
  rcases List.eq_nil_or_concat l₂ with rfl | ⟨l₃, z, rfl⟩
  · obtain ⟨rfl, hxy⟩ := List.append_inj' h rfl
    exact .inl ⟨rfl, (List.singleton_inj.mp hxy).symm⟩
  · rw [List.concat_eq_append, ← List.cons_append, ← List.append_assoc] at h
    exact .inr ⟨l₃, (List.append_inj' h rfl).1⟩

theorem call (h : WellFormedHistory H) {i : ι} (a : α) (hfresh : ∀ a', .call i a' ∉ H) :
    WellFormedHistory (H ++ [.call i a]) where
  calls H₁ H₂ j a' he := by
    rcases split_append he with ⟨rfl, hc⟩ | ⟨H₃, rfl⟩
    · cases hc
      exact hfresh
    · exact h.calls H₁ H₃ j a' rfl
  rets H₁ H₂ j b he := by
    rcases split_append he with ⟨-, hc⟩ | ⟨H₃, rfl⟩
    · cases hc
    · exact h.rets H₁ H₃ j b rfl

theorem ret (h : WellFormedHistory H) {i : ι} (b : β) (hcall : ∃ a, .call i a ∈ H)
    (hfresh : ∀ b', .ret i b' ∉ H) : WellFormedHistory (H ++ [.ret i b]) where
  calls H₁ H₂ j a he := by
    rcases split_append he with ⟨-, hc⟩ | ⟨H₃, rfl⟩
    · cases hc
    · exact h.calls H₁ H₃ j a rfl
  rets H₁ H₂ j b' he := by
    rcases split_append he with ⟨rfl, hc⟩ | ⟨H₃, rfl⟩
    · cases hc
      exact ⟨hcall, hfresh⟩
    · exact h.rets H₁ H₃ j b' rfl

end WellFormedHistory
