import RpcLock.Marshall.Types

/-!
# The target of an extraction

What `operator>>` leaves of the old contents of its target.  A scalar is
assigned, a string is swapped with the bytes that were read, a map is cleared;
a vector is only appended to.  `call_m` extracts the reply into the caller's
variable, so the elements of an earlier reply stay in a vector.
-/

namespace RpcLock

/-- The `std::vector` types. -/
def Ty.isVector : Ty → Bool
  | .vector _ => true
  | _ => false

/-- `rpcc::call_m` once `call1` has returned `intret` with the reply in `u`:
`none` when the assertion that the reply was well formed fails. -/
def callM (t : Ty) (intret : Int) (u : Unmarshall) (r : t.den) : Option (Int × t.den) :=
  if intret < 0 then some (intret, r)
  else
    let (r', u') := Unmarshall.getInto t r u
    if u'.okdone then some (intret, r') else none

namespace Unmarshall

variable {u : Unmarshall}

/-! ## Strings -/

theorem rawbytes_snd (s s' : StdString) (n : UInt32) :
    (u.rawbytes s n).2 = (u.rawbytes s' n).2 := by
  unfold rawbytes
  dsimp only
  split <;> rfl

/-- A copy that succeeds replaces the whole string. -/
theorem rawbytes_fst {s : StdString} {n : UInt32} (hok : (u.rawbytes s n).2.ok = true)
    (s' : StdString) : (u.rawbytes s n).1 = (u.rawbytes s' n).1 := by
  unfold rawbytes at hok ⊢
  dsimp only at hok ⊢
  split at hok
  · cases hok
  · rename_i hle
    rw [if_neg hle, if_neg hle]

theorem getString_snd (s s' : StdString) : (u.getString s).2 = (u.getString s').2 := by
  unfold getString
  dsimp only
  split
  · exact rawbytes_snd s s' _
  · rfl

theorem getString_fst {s : StdString} (hok : (u.getString s).2.ok = true) (s' : StdString) :
    (u.getString s).1 = (u.getString s').1 := by
  unfold getString at hok ⊢
  dsimp only at hok ⊢
  split at hok
  · rename_i hcount
    rw [if_pos hcount, if_pos hcount]
    exact rawbytes_fst hok s'
  · rename_i hcount
    exact absurd hok hcount

/-! ## Vectors -/

/-- The loop of the vector appends: what it reads does not depend on what the
vector held. -/
theorem getElems_append {α : Type} (get : Unmarshall → α × Unmarshall) (n : Nat) (v : List α)
    (u : Unmarshall) :
    getElems get n v u = (v ++ (getElems get n [] u).1, (getElems get n [] u).2) := by
  induction n generalizing v u with
  | zero => simp [getElems]
  | succ n ih =>
      simp only [getElems, List.nil_append]
      rw [ih (v ++ [(get u).1]), ih [(get u).1]]
      simp

theorem getVector_append {α : Type} (get : Unmarshall → α × Unmarshall) (v : List α)
    (u : Unmarshall) :
    u.getVector get v = (v ++ (u.getVector get []).1, (u.getVector get []).2) :=
  getElems_append get _ v _

/-! ## All types -/

/-- Where an extraction ends, and whether it succeeds, does not depend on the
target. -/
theorem getInto_snd (t : Ty) (x y : t.den) (u : Unmarshall) :
    (getInto t x u).2 = (getInto t y u).2 := by
  cases t with
  | bool | char | uchar | short | ushort | int | uint | ulonglong => rfl
  | string => exact getString_snd x y
  | vector t =>
      show (u.getVector _ x).2 = (u.getVector _ y).2
      rw [getVector_append _ x, getVector_append _ y]
  | map a b => rfl

/-- The extractions that overwrite their target. -/
theorem getInto_fst {t : Ty} (ht : t.isVector = false) {x : t.den}
    (hok : (getInto t x u).2.ok = true) (y : t.den) :
    (getInto t x u).1 = (getInto t y u).1 := by
  cases t with
  | bool | char | uchar | short | ushort | int | uint | ulonglong => rfl
  | string => exact getString_fst hok y
  | vector t => cases ht
  | map a b => rfl

/-- Two successful extractions at the same position agree, unless the target is
a vector that held something else. -/
theorem getInto_fst_iff (t : Ty) (x y : t.den) (u : Unmarshall)
    (hok : (getInto t x u).2.ok = true) :
    (getInto t x u).1 = (getInto t y u).1 ↔ (t.isVector = true → x = y) := by
  cases hv : t.isVector with
  | false => exact iff_of_true (getInto_fst hv hok y) (fun h => absurd h (by decide))
  | true =>
      cases t with
      | vector t =>
          show (u.getVector _ x).1 = (u.getVector _ y).1 ↔ _
          rw [getVector_append _ x, getVector_append _ y]
          exact (List.append_left_inj _).trans ⟨fun h _ => h, fun h => h rfl⟩
      | _ => cases hv

theorem callM_eq_some {t : Ty} {intret : Int} {r r' : t.den} (h0 : 0 ≤ intret) :
    callM t intret u r = some (intret, r') ↔
      (getInto t r u).2.okdone = true ∧ (getInto t r u).1 = r' := by
  unfold callM
  rw [if_neg (not_lt.mpr h0)]
  dsimp only
  split
  · rename_i hdone
    simp [hdone]
  · rename_i hdone
    simp [hdone]

/-- For every type, position and pair of targets: a successful extraction ends
in the same state, and in the same value unless the target is a vector that
held something else.  So does a call into the two targets. -/
theorem target_overwritten_iff (t : Ty) (x y : t.den) (u : Unmarshall)
    (hok : (getInto t x u).2.ok = true) :
    (getInto t x u).2 = (getInto t y u).2 ∧
      ((getInto t x u).1 = (getInto t y u).1 ↔ (t.isVector = true → x = y)) ∧
      ∀ intret r, 0 ≤ intret → callM t intret u x = some (intret, r) →
        ∃ r', callM t intret u y = some (intret, r') ∧
          (r = r' ↔ (t.isVector = true → x = y)) := by
  refine ⟨getInto_snd t x y u, getInto_fst_iff t x y u hok, fun intret r h0 hx => ?_⟩
  obtain ⟨hdone, rfl⟩ := (callM_eq_some h0).mp hx
  rw [getInto_snd t x y u] at hdone
  exact ⟨_, (callM_eq_some h0).mpr ⟨hdone, rfl⟩, getInto_fst_iff t x y u hok⟩

/-- A reply with the string "ab". -/
def twoLetters : Unmarshall := ⟨[0, 0, 0, 2, 97, 98], 6, 0, true, false⟩

theorem target_overwritten_string :
    (getInto .string ([] : StdString) twoLetters).1 =
      (getInto .string ([122] : StdString) twoLetters).1 :=
  ((target_overwritten_iff .string ([] : StdString) ([122] : StdString) twoLetters rfl).2.1).mpr
    fun h => absurd h (by decide)

/-- A reply with a vector of one byte. -/
def oneElement : Unmarshall := ⟨[0, 0, 0, 1, 7], 5, 0, true, false⟩

/-- Extracted into a vector that holds a byte, the reply has two. -/
theorem target_kept :
    (getInto (.vector .uchar) ([] : List UInt8) oneElement).2.ok = true ∧
      (getInto (.vector .uchar) ([] : List UInt8) oneElement).1 = ([7] : List UInt8) ∧
      (getInto (.vector .uchar) ([9] : List UInt8) oneElement).1 = ([9, 7] : List UInt8) ∧
      (getInto (.vector .uchar) ([] : List UInt8) oneElement).1 ≠
        (getInto (.vector .uchar) ([9] : List UInt8) oneElement).1 :=
  have hempty : (getInto (.vector .uchar) ([] : List UInt8) oneElement).1 = ([7] : List UInt8) := rfl
  have hheld : (getInto (.vector .uchar) ([9] : List UInt8) oneElement).1 = ([9, 7] : List UInt8) :=
    rfl
  ⟨rfl, hempty, hheld, by
    rw [hempty, hheld]
    exact fun h => absurd (List.cons.inj h).1 (by decide)⟩

end Unmarshall

end RpcLock
