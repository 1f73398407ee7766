import Mathlib.Data.Nat.Basic
import Mathlib.Data.List.Basic
import Mathlib.Tactic.Ring

/-!
# Big-endian byte strings

`encode w n` writes the low `w` bytes of `n`, most significant byte first.
`decode` reads a byte string of any length as a number.  The two are inverse on
numbers below `256 ^ w` and on strings of length `w`.
-/

namespace BigEndian

/-- The low `w` bytes of `n`, most significant first. -/
def encode : Nat → Nat → List UInt8
  | 0, _ => []
  | w + 1, n => UInt8.ofNat (n / 256 ^ w) :: encode w n

/-- The number a byte string denotes. -/
def decode : List UInt8 → Nat
  | [] => 0
  | b :: l => b.toNat * 256 ^ l.length + decode l

@[simp] theorem encode_zero (n : Nat) : encode 0 n = [] := rfl

@[simp] theorem length_encode (w n : Nat) : (encode w n).length = w := by
  induction w with
  | zero => rfl
  | succ w ih => simp [encode, ih]

@[simp] theorem decode_nil : decode [] = 0 := rfl

theorem decode_lt (l : List UInt8) : decode l < 256 ^ l.length := by
  induction l with
  | nil => simp
  | cons b l ih =>
      have hb : b.toNat + 1 ≤ 256 := b.toNat_lt
      have hmul : (b.toNat + 1) * 256 ^ l.length ≤ 256 * 256 ^ l.length :=
        Nat.mul_le_mul_right _ hb
      simp only [decode, List.length_cons, pow_succ]
      calc b.toNat * 256 ^ l.length + decode l
          < b.toNat * 256 ^ l.length + 256 ^ l.length := by omega
        _ = (b.toNat + 1) * 256 ^ l.length := by ring
        _ ≤ 256 * 256 ^ l.length := hmul
        _ = 256 ^ l.length * 256 := by ring

/-- Reading back what was written keeps the low `w` bytes. -/
theorem decode_encode_mod (w n : Nat) : decode (encode w n) = n % 256 ^ w := by
  induction w with
  | zero => simp [Nat.mod_one]
  | succ w ih =>
      have hb : (UInt8.ofNat (n / 256 ^ w)).toNat = n / 256 ^ w % 256 := rfl
      simp only [encode, decode, length_encode, ih, hb]
      rw [pow_succ, Nat.mod_mul]
      ring

theorem decode_encode {w n : Nat} (h : n < 256 ^ w) : decode (encode w n) = n := by
  rw [decode_encode_mod, Nat.mod_eq_of_lt h]

/-- Only the low `w` bytes of the number are written. -/
theorem encode_mul_add (w k n : Nat) : encode w (k * 256 ^ w + n) = encode w n := by
  induction w generalizing k with
  | zero => rfl
  | succ w ih =>
      have hpow : k * 256 ^ (w + 1) = k * 256 * 256 ^ w := by rw [pow_succ]; ring
      have hdiv : (k * 256 * 256 ^ w + n) / 256 ^ w = k * 256 + n / 256 ^ w := by
        rw [Nat.add_comm, Nat.add_mul_div_right _ _ (Nat.pow_pos (by decide)), Nat.add_comm]
      have hbyte : UInt8.ofNat (k * 256 + n / 256 ^ w) = UInt8.ofNat (n / 256 ^ w) := by
        apply UInt8.toNat_inj.mp
        simp [UInt8.toNat_ofNat']
      rw [encode, encode, hpow, hdiv, hbyte, ih]

/-- Writing what was read gives back the bytes. -/
theorem encode_decode (l : List UInt8) : encode l.length (decode l) = l := by
  induction l with
  | nil => rfl
  | cons b l ih =>
      have hdiv : (b.toNat * 256 ^ l.length + decode l) / 256 ^ l.length = b.toNat := by
        rw [Nat.add_comm, Nat.add_mul_div_right _ _ (Nat.pow_pos (by decide)),
          Nat.div_eq_of_lt (decode_lt l), Nat.zero_add]
      rw [List.length_cons, encode, decode, hdiv, encode_mul_add, ih, UInt8.ofNat_toNat]

/-- A wide number is written as its high part and its low part. -/
theorem encode_add (v w n : Nat) : encode (v + w) n = encode v (n / 256 ^ w) ++ encode w n := by
  induction v with
  | zero => simp
  | succ v ih =>
      have hdiv : n / 256 ^ (v + w) = n / 256 ^ w / 256 ^ v := by
        rw [Nat.div_div_eq_div_mul, ← pow_add, Nat.add_comm w v]
      rw [Nat.add_right_comm, encode, encode, ih, hdiv, List.cons_append]

theorem two_pow_eight_mul (k : Nat) : 2 ^ (8 * k) = 256 ^ k := by
  rw [pow_mul]
  norm_num

/-- The highest byte of a word is what a shift and a mask leave. -/
theorem encode_succ (w n : Nat) :
    encode (w + 1) n = UInt8.ofNat ((n >>> (8 * w)) &&& 0xff) :: encode w n := by
  have hmask : ∀ k : Nat, UInt8.ofNat (k &&& 0xff) = UInt8.ofNat k := by
    intro k
    have hand : k &&& 0xff = k % 2 ^ 8 := Nat.and_two_pow_sub_one_eq_mod k 8
    apply UInt8.toNat_inj.mp
    simp [hand, UInt8.toNat_ofNat']
  rw [encode, hmask, Nat.shiftRight_eq_div_pow, two_pow_eight_mul]

/-- The bytes of a word are put together by shifts and bitwise or. -/
theorem decode_cons (b : UInt8) (l : List UInt8) :
    decode (b :: l) = b.toNat <<< (8 * l.length) ||| decode l := by
  have hlt : decode l < 2 ^ (8 * l.length) := by
    rw [two_pow_eight_mul]
    exact decode_lt l
  rw [← Nat.shiftLeft_add_eq_or_of_lt hlt, Nat.shiftLeft_eq, two_pow_eight_mul, decode]

end BigEndian
