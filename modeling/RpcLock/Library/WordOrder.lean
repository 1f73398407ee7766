import Mathlib.Order.Lattice

/-!
# Machine words as linear orders

The fixed-width integers of the core library carry `≤` and `<` but no order
structure.  `linearOrderOfKey` builds one from a key into the integers that
reflects both relations.  The key is the value of the word, so the unsigned
types are ordered by `toNat` and the signed ones by `toInt`.
-/

namespace WordOrder

/-- A type whose order is read off an injective integer key. -/
abbrev linearOrderOfKey {α : Type*} [LE α] [LT α] [DecidableLE α] [DecidableEq α]
    [DecidableLT α] (key : α → Int) (hinj : ∀ a b, key a = key b → a = b)
    (hle : ∀ a b : α, a ≤ b ↔ key a ≤ key b) (hlt : ∀ a b : α, a < b ↔ key a < key b) :
    LinearOrder α where
  le_refl a := by rw [hle]
  le_trans a b c := by
    rw [hle, hle, hle]
    exact Int.le_trans
  le_antisymm a b := by
    rw [hle, hle]
    intro hab hba
    exact hinj a b (Int.le_antisymm hab hba)
  le_total a b := by
    rw [hle, hle]
    exact Int.le_total _ _
  lt_iff_le_not_ge a b := by
    rw [hlt, hle, hle]
    omega
  toDecidableLE := inferInstance
  toDecidableEq := inferInstance
  toDecidableLT := inferInstance

instance linearOrderUInt8 : LinearOrder UInt8 :=
  linearOrderOfKey (fun a => (a.toNat : Int))
    (fun _ _ h => UInt8.toNat_inj.mp (Int.ofNat_inj.mp h))
    (fun _ _ => UInt8.le_iff_toNat_le.trans Int.ofNat_le.symm)
    (fun _ _ => UInt8.lt_iff_toNat_lt.trans Int.ofNat_lt.symm)

instance linearOrderUInt16 : LinearOrder UInt16 :=
  linearOrderOfKey (fun a => (a.toNat : Int))
    (fun _ _ h => UInt16.toNat_inj.mp (Int.ofNat_inj.mp h))
    (fun _ _ => UInt16.le_iff_toNat_le.trans Int.ofNat_le.symm)
    (fun _ _ => UInt16.lt_iff_toNat_lt.trans Int.ofNat_lt.symm)

instance linearOrderUInt32 : LinearOrder UInt32 :=
  linearOrderOfKey (fun a => (a.toNat : Int))
    (fun _ _ h => UInt32.toNat_inj.mp (Int.ofNat_inj.mp h))
    (fun _ _ => UInt32.le_iff_toNat_le.trans Int.ofNat_le.symm)
    (fun _ _ => UInt32.lt_iff_toNat_lt.trans Int.ofNat_lt.symm)

instance linearOrderUInt64 : LinearOrder UInt64 :=
  linearOrderOfKey (fun a => (a.toNat : Int))
    (fun _ _ h => UInt64.toNat_inj.mp (Int.ofNat_inj.mp h))
    (fun _ _ => UInt64.le_iff_toNat_le.trans Int.ofNat_le.symm)
    (fun _ _ => UInt64.lt_iff_toNat_lt.trans Int.ofNat_lt.symm)

instance linearOrderInt8 : LinearOrder Int8 :=
  linearOrderOfKey Int8.toInt (fun _ _ => Int8.toInt_inj.mp)
    (fun _ _ => Int8.le_iff_toInt_le) (fun _ _ => Int8.lt_iff_toInt_lt)

instance linearOrderInt16 : LinearOrder Int16 :=
  linearOrderOfKey Int16.toInt (fun _ _ => Int16.toInt_inj.mp)
    (fun _ _ => Int16.le_iff_toInt_le) (fun _ _ => Int16.lt_iff_toInt_lt)

instance linearOrderInt32 : LinearOrder Int32 :=
  linearOrderOfKey Int32.toInt (fun _ _ => Int32.toInt_inj.mp)
    (fun _ _ => Int32.le_iff_toInt_le) (fun _ _ => Int32.lt_iff_toInt_lt)

end WordOrder
