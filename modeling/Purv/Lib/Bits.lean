import Mathlib.Tactic.IntervalCases
import Mathlib.Tactic.Ring

/-!
# Bit fields of machine words

* `bits w lo len` — the field `(w >> lo) & (2^len - 1)` as a 32-bit value;
* `sext v n` — sign extension of the low `n` bits by a pair of shifts;
* `place f lo` — a field put at bit `lo` of a 32-bit word;
* `cat k x y` — the `k`-bit value with `y` at the bottom and `x` above it.

The `getElem_*` lemmas read one bit of each; an equation between packed words is then proved
bit by bit.
-/

namespace Bits

/-- `(w >> lo) & (2^len - 1)`. -/
def bits {n : Nat} (w : BitVec n) (lo len : Nat) : BitVec 32 := (w.extractLsb' lo len).setWidth 32

/-- `(int32_t)(v << (32 - n)) >> (32 - n)`. -/
def sext (v : BitVec 32) (n : Nat) : BitVec 32 := (v <<< (32 - n)).sshiftRight (32 - n)

/-- The field `f` at bit `lo` of a word. -/
def place {n : Nat} (f : BitVec n) (lo : Nat) : BitVec 32 := f.setWidth 32 <<< lo

/-- `x` above `y`, as a `k`-bit value. -/
def cat {n m : Nat} (k : Nat) (x : BitVec n) (y : BitVec m) : BitVec k :=
  x.setWidth k <<< m ||| y.setWidth k

theorem getElem_bits {n : Nat} (w : BitVec n) (lo len i : Nat) (hi : i < 32) :
    (bits w lo len)[i] = (decide (i < len) && w.getLsbD (lo + i)) := by
  simp [bits]

theorem getElem_place {n : Nat} (f : BitVec n) (lo i : Nat) (hi : i < 32) :
    (place f lo)[i] = (decide (lo ≤ i) && f.getLsbD (i - lo)) := by
  by_cases h : i < lo
  · simp [place, h]
  · simp [place, h, Nat.le_of_not_lt h]

theorem getElem_cat {n m : Nat} (k : Nat) (x : BitVec n) (y : BitVec m) (i : Nat) (hi : i < k) :
    (cat k x y)[i] = if i < m then y.getLsbD i else x.getLsbD (i - m) := by
  by_cases h : i < m
  · simp [cat, h]
  · simp [cat, h, BitVec.getLsbD_of_ge y i (by omega)]

theorem getElem_sext (v : BitVec 32) (n i : Nat) (hi : i < 32) (hn : 0 < n) (hn' : n ≤ 32) :
    (sext v n)[i] = v.getLsbD (min i (n - 1)) := by
  simp only [sext, BitVec.getElem_sshiftRight, BitVec.msb_eq_getLsbD_last]
  by_cases h : i < n
  · have h1 : 32 - n + i < 32 := by omega
    have h2 : min i (n - 1) = i := by omega
    simp [h1, h2, BitVec.getLsbD_eq_getElem hi]
  · have h1 : ¬ 32 - n + i < 32 := by omega
    have h2 : min i (n - 1) = n - 1 := by omega
    have h3 : 31 - (32 - n) = n - 1 := by omega
    have h4 : ¬ 31 < 32 - n := by omega
    simp [h1, h2, h3, h4, BitVec.getLsbD_eq_getElem (show n - 1 < 32 by omega)]

theorem sext_full (v : BitVec 32) : sext v 32 = v := by
  simp [sext]

/-- Sign extension by shifts is `signExtend` of the low part. -/
theorem sext_eq (v : BitVec 32) (n : Nat) (hn : 0 < n) (hn' : n ≤ 32) :
    sext v n = (v.setWidth n).signExtend 32 := by
  ext i hi
  rw [getElem_sext v n i hi hn hn', BitVec.getElem_signExtend]
  by_cases h : i < n
  · have h2 : min i (n - 1) = i := by omega
    simp [h, h2]
  · have h2 : min i (n - 1) = n - 1 := by omega
    have h3 : n - 1 < n := by omega
    simp [h, h2, BitVec.msb_eq_getLsbD_last, h3]

/-- Extending twice is extending once. -/
theorem signExtend_signExtend {a b k : Nat} (x : BitVec a) (ha : 0 < a) (hab : a ≤ b) :
    (x.signExtend b).signExtend k = x.signExtend k := by
  ext i hi
  simp only [BitVec.getElem_signExtend, BitVec.msb_eq_getLsbD_last, BitVec.getLsbD_signExtend]
  by_cases h1 : i < a
  · have h2 : i < b := by omega
    simp [h1, h2]
  · by_cases h2 : i < b
    · simp [h1, h2]
    · by_cases h3 : b - 1 < a
      · have h4 : b - 1 = a - 1 := by omega
        simp [h1, h2, h4, show a - 1 < b by omega]
      · simp [h1, h2, h3, show b - 1 < b by omega]

/-- A field above the bits of `a` adds. -/
theorem toNat_or_shiftLeft {n : Nat} (a b : BitVec n) (k : Nat) (ha : a.toNat < 2 ^ k)
    (hb : b.toNat * 2 ^ k < 2 ^ n) : (a ||| b <<< k).toNat = a.toNat + b.toNat * 2 ^ k := by
  rw [BitVec.toNat_or, BitVec.toNat_shiftLeft, Nat.shiftLeft_eq, Nat.mod_eq_of_lt hb, Nat.or_comm,
    Nat.mul_comm, ← Nat.two_pow_add_eq_or_of_lt ha]
  omega

/-- A byte is a digit to base 256. -/
theorem extract_byte {n : Nat} (v : BitVec n) (i : Nat) :
    v.extractLsb' (8 * i) 8 = BitVec.ofNat 8 (v.toNat / 256 ^ i) := by
  apply BitVec.eq_of_toNat_eq
  rw [BitVec.extractLsb'_toNat, BitVec.toNat_ofNat, Nat.shiftRight_eq_div_pow, Nat.pow_mul]

/-- Rounding down to a multiple of 16. -/
theorem and_not_15 (x : BitVec 32) : (x &&& ~~~15#32).toNat = x.toNat / 16 * 16 := by
  have hshift : x &&& ~~~15#32 = (x >>> 4) <<< 4 := by
    apply BitVec.eq_of_getLsbD_eq
    intro i hi
    interval_cases i <;> simp
  rw [hshift, BitVec.toNat_shiftLeft, BitVec.toNat_ushiftRight, Nat.shiftLeft_eq,
    Nat.shiftRight_eq_div_pow]
  omega

end Bits
