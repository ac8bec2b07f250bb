import Purv.Lib.Bits

/-!
# The 64-bit division of the guest runtime (`sqlite/builtins.c`)

RV32 divides words only; the doubleword helpers of the compiler's runtime are a shift and subtract
loop.

* `udivmod`, `udivdi3`, `umoddi3`, `divdi3`, `moddi3` — the helpers;
* `divFrom_spec` — the loop, whose partial remainder never loses a bit to the shift;
* `division_exact` — quotients and remainders are exact.
-/

namespace Purv.Builtins

open Bits

abbrev Dword := BitVec 64

/-- The loop of `udivmod` over the bits below `i`. -/
def divFrom (n d : Dword) : Nat → Dword → Dword → Dword × Dword
  | 0, q, r => (q, r)
  | i + 1, q, r =>
    let r := (r <<< 1) ||| ((n >>> i) &&& 1#64)
    if r ≥ d then divFrom n d i (q ||| (1#64 <<< i)) (r - d) else divFrom n d i q r

/-- `udivmod`, with `*rem` beside the quotient. -/
def udivmod (n d : Dword) : Dword × Dword := divFrom n d 64 0#64 0#64

/-- `__udivdi3`. -/
def udivdi3 (n d : Dword) : Dword := (udivmod n d).1

/-- `__umoddi3`. -/
def umoddi3 (n d : Dword) : Dword := (udivmod n d).2

/-- `x < 0 ? -(uint64_t)x : (uint64_t)x`. -/
def magnitude (x : Dword) : Dword := if x.slt 0#64 then -x else x

/-- `__divdi3`. -/
def divdi3 (a b : Dword) : Dword :=
  let neg := a.slt 0#64 ^^ b.slt 0#64
  let q := (udivmod (magnitude a) (magnitude b)).1
  if neg then -q else q

/-- `__moddi3`. -/
def moddi3 (a b : Dword) : Dword :=
  let r := (udivmod (magnitude a) (magnitude b)).2
  if a.slt 0#64 then -r else r

/-! ## The loop -/

/-- The shift that brings in the next bit loses none. -/
theorem shift_in (n r : Dword) (i : Nat) (hr : r.toNat < 2 ^ 63) :
    ((r <<< 1) ||| ((n >>> i) &&& 1#64)).toNat = 2 * r.toNat + n.toNat / 2 ^ i % 2 := by
  have hbit : ((n >>> i) &&& 1#64).toNat = n.toNat / 2 ^ i % 2 := by
    rw [BitVec.toNat_and, BitVec.toNat_ushiftRight, Nat.shiftRight_eq_div_pow]
    exact Nat.and_one_is_mod _
  have hshift : (r <<< 1).toNat = 2 * r.toNat := by
    rw [BitVec.toNat_shiftLeft, Nat.shiftLeft_eq, Nat.mod_eq_of_lt (by omega)]
    omega
  rw [BitVec.toNat_or, hbit, hshift, Nat.mul_comm, ← Nat.pow_one 2, ← Nat.shiftLeft_eq,
    ← Nat.shiftLeft_add_eq_or_of_lt (Nat.mod_lt _ (by omega))]

/-- A bit set below the ones that are. -/
theorem set_bit (q : Dword) {i m : Nat} (hq : q.toNat = m * 2 ^ (i + 1)) (hi : i < 64) :
    (q ||| (1#64 <<< i)).toNat = (2 * m + 1) * 2 ^ i := by
  have hone : (1#64 <<< i).toNat = 2 ^ i := by
    rw [BitVec.toNat_shiftLeft, Nat.shiftLeft_eq]
    simp [Nat.mod_eq_of_lt (Nat.pow_lt_pow_right (show 1 < 2 by omega) hi)]
  rw [BitVec.toNat_or, hone, hq, ← Nat.shiftLeft_eq,
    ← Nat.shiftLeft_add_eq_or_of_lt (Nat.pow_lt_pow_right (by omega) (Nat.lt_succ_self i)),
    Nat.shiftLeft_eq, Nat.pow_succ]
  ring

/-- One digit of long division in base 2. -/
theorem long_division {m b d : Nat} (hd : 0 < d) :
    (2 * m + b) / d = 2 * (m / d) + (2 * (m % d) + b) / d ∧
      (2 * m + b) % d = (2 * (m % d) + b) % d := by
  have hm : 2 * m + b = d * (2 * (m / d)) + (2 * (m % d) + b) := by
    have := Nat.div_add_mod m d
    calc 2 * m + b = 2 * (d * (m / d) + m % d) + b := by rw [this]
      _ = d * (2 * (m / d)) + (2 * (m % d) + b) := by ring
  constructor
  · rw [hm, Nat.mul_add_div hd]
  · rw [hm, Nat.mul_add_mod]

/-- **The loop**: with the bits of `n` from `i` on divided, the rest follows. -/
theorem divFrom_spec (n d : Dword) (hd : d ≠ 0#64) (i : Nat) (hi : i ≤ 64) (q r : Dword)
    (hq : q.toNat = n.toNat / 2 ^ i / d.toNat * 2 ^ i)
    (hr : r.toNat = n.toNat / 2 ^ i % d.toNat) :
    (divFrom n d i q r).1.toNat = n.toNat / d.toNat ∧
      (divFrom n d i q r).2.toNat = n.toNat % d.toNat := by
  have hpos : 0 < d.toNat := by
    apply Nat.pos_of_ne_zero
    intro h
    exact hd (BitVec.eq_of_toNat_eq h)
  induction i generalizing q r with
  | zero =>
    simp only [Nat.pow_zero, Nat.div_one, Nat.mul_one] at hq hr
    exact ⟨hq, hr⟩
  | succ i ih =>
    -- the remainder is at most the part of `n` that was divided, which has lost a bit at least
    have hlt : r.toNat < 2 ^ 63 := by
      have hle : n.toNat / 2 ^ (i + 1) % d.toNat ≤ n.toNat / 2 ^ (i + 1) := Nat.mod_le _ _
      have hhalf : n.toNat / 2 ^ (i + 1) ≤ n.toNat / 2 :=
        Nat.div_le_div_left (Nat.le_self_pow (by omega) 2) (by omega)
      have := n.isLt
      omega
    have hsplit : n.toNat / 2 ^ i = 2 * (n.toNat / 2 ^ (i + 1)) + n.toNat / 2 ^ i % 2 := by
      rw [Nat.pow_succ, ← Nat.div_div_eq_div_mul]
      omega
    have hb : n.toNat / 2 ^ i % 2 < 2 := Nat.mod_lt _ (by omega)
    have hr' := shift_in n r i hlt
    rw [hr] at hr'
    obtain ⟨hdiv, hmod⟩ := long_division (m := n.toNat / 2 ^ (i + 1)) (b := n.toNat / 2 ^ i % 2) hpos
    rw [← hsplit] at hdiv hmod
    have hrem : n.toNat / 2 ^ (i + 1) % d.toNat < d.toNat := Nat.mod_lt _ hpos
    unfold divFrom
    simp only
    generalize (r <<< 1) ||| ((n >>> i) &&& 1#64) = r' at hr'
    rw [← hr'] at hdiv hmod
    split
    · rename_i hge
      rw [ge_iff_le, BitVec.le_def] at hge
      have h1 : r'.toNat / d.toNat = 1 := by
        rw [Nat.div_eq_iff hpos]
        omega
      apply ih (by omega)
      · rw [set_bit q hq (by omega), hdiv, h1]
      · rw [BitVec.toNat_sub_of_le (by rw [BitVec.le_def]; exact hge), hmod]
        rw [Nat.mod_eq_sub_mod hge, Nat.mod_eq_of_lt]
        omega
    · rename_i hlt'
      rw [ge_iff_le, BitVec.le_def] at hlt'
      have h0 : r'.toNat / d.toNat = 0 := Nat.div_eq_of_lt (by omega)
      apply ih (by omega)
      · rw [hq, hdiv, h0, Nat.pow_succ]
        ring
      · rw [hmod, Nat.mod_eq_of_lt (by omega)]

theorem udivmod_eq (n d : Dword) (hd : d ≠ 0#64) : udivmod n d = (n / d, n % d) := by
  have hn : n.toNat / 2 ^ 64 = 0 := Nat.div_eq_of_lt n.isLt
  obtain ⟨hq, hr⟩ := divFrom_spec n d hd 64 (Nat.le_refl _) 0#64 0#64
    (by rw [hn, Nat.zero_div]; rfl) (by rw [hn, Nat.zero_mod]; rfl)
  apply Prod.ext
  · exact BitVec.eq_of_toNat_eq (by rw [BitVec.toNat_udiv]; exact hq)
  · exact BitVec.eq_of_toNat_eq (by rw [BitVec.toNat_umod]; exact hr)

theorem udivdi3_eq (n d : Dword) (hd : d ≠ 0#64) : udivdi3 n d = n / d := by
  rw [udivdi3, udivmod_eq n d hd]

theorem umoddi3_eq (n d : Dword) (hd : d ≠ 0#64) : umoddi3 n d = n % d := by
  rw [umoddi3, udivmod_eq n d hd]

/-! ## Signs -/

theorem magnitude_ne {b : Dword} (hb : b ≠ 0#64) : magnitude b ≠ 0#64 := by
  unfold magnitude
  split
  · simpa using hb
  · exact hb

theorem slt_zero (a : Dword) : a.slt 0#64 = a.msb := by
  rw [BitVec.slt_zero_eq_msb]

/-- The signed quotient is `BitVec`'s. -/
theorem divdi3_eq (a b : Dword) (hb : b ≠ 0#64) : divdi3 a b = a.sdiv b := by
  unfold divdi3
  rw [udivmod_eq _ _ (magnitude_ne hb)]
  unfold magnitude
  simp only [slt_zero, BitVec.sdiv_eq]
  cases a.msb <;> cases b.msb <;> simp

/-- The signed remainder is `BitVec`'s. -/
theorem moddi3_eq (a b : Dword) (hb : b ≠ 0#64) : moddi3 a b = a.srem b := by
  unfold moddi3
  rw [udivmod_eq _ _ (magnitude_ne hb)]
  unfold magnitude
  simp only [slt_zero, BitVec.srem_eq]
  cases a.msb <;> cases b.msb <;> simp

/-- `INT64_MIN`. -/
def INT64_MIN : Dword := BitVec.intMin 64

/-- A remainder of truncated division is zero or has the sign of the dividend. -/
theorem tmod_sign (a b : Int) : a.tmod b = 0 ∨ (a.tmod b).sign = a.sign := by
  rcases Int.lt_trichotomy a 0 with ha | ha | ha
  · have hle : a.tmod b ≤ 0 := by
      have hneg : 0 ≤ (-a).tmod b := Int.tmod_nonneg b (by omega)
      rw [Int.neg_tmod] at hneg
      omega
    rcases Int.lt_or_eq_of_le hle with h | h
    · exact .inr (by rw [Int.sign_eq_neg_one_of_neg h, Int.sign_eq_neg_one_of_neg ha])
    · exact .inl h
  · simp [ha]
  · have hle : 0 ≤ a.tmod b := Int.tmod_nonneg b (by omega)
    rcases Int.lt_or_eq_of_le hle with h | h
    · exact .inr (by rw [Int.sign_eq_one_of_pos h, Int.sign_eq_one_of_pos ha])
    · exact .inl h.symm

/-- Quotient times divisor plus remainder, in 64 bits. -/
theorem sdiv_mul_add_srem (a b : Dword) : a.sdiv b * b + a.srem b = a := by
  apply BitVec.eq_of_toInt_eq
  rw [BitVec.toInt_add, BitVec.toInt_mul, BitVec.toInt_sdiv, BitVec.toInt_srem]
  rw [Int.bmod_mul_bmod, Int.bmod_add_bmod, Int.tdiv_mul_add_tmod]
  exact BitVec.toInt_bmod_cancel a

/-- **The division helpers are exact**: the unsigned ones for every divisor but zero, and the signed
ones truncate, with the remainder that goes with it, modulo `2 ^ 64` for `INT64_MIN / -1`. -/
theorem division_exact (n d a b : Dword) (hd : d ≠ 0#64) (hb : b ≠ 0#64) :
    (n.toNat = (udivdi3 n d).toNat * d.toNat + (umoddi3 n d).toNat ∧
        (umoddi3 n d).toNat < d.toNat) ∧
      (divdi3 a b * b + moddi3 a b = a ∧
        (divdi3 a b).toInt = (a.toInt.tdiv b.toInt).bmod (2 ^ 64) ∧
        (moddi3 a b).toInt.natAbs < b.toInt.natAbs ∧
        ((moddi3 a b).toInt = 0 ∨ (moddi3 a b).toInt.sign = a.toInt.sign)) ∧
      (¬ (a = INT64_MIN ∧ b = -1#64) →
        (divdi3 a b).toInt = a.toInt.tdiv b.toInt ∧
          a.toInt = (divdi3 a b).toInt * b.toInt + (moddi3 a b).toInt) := by
  have hpos : 0 < d.toNat := by
    apply Nat.pos_of_ne_zero
    intro h
    exact hd (BitVec.eq_of_toNat_eq h)
  have hb0 : b.toInt ≠ 0 := by
    intro h
    exact hb (BitVec.eq_of_toInt_eq h)
  rw [divdi3_eq a b hb, moddi3_eq a b hb]
  refine ⟨?_, ⟨sdiv_mul_add_srem a b, BitVec.toInt_sdiv a b, ?_, ?_⟩, ?_⟩
  · rw [udivdi3_eq n d hd, umoddi3_eq n d hd]
    simp only [BitVec.toNat_udiv, BitVec.toNat_umod]
    exact ⟨(Nat.div_add_mod' _ _).symm, Nat.mod_lt _ hpos⟩
  · rw [BitVec.toInt_srem, Int.natAbs_tmod]
    exact Nat.mod_lt _ (by omega)
  · rw [BitVec.toInt_srem]
    exact tmod_sign _ _
  · intro h
    have hq : (a.sdiv b).toInt = a.toInt.tdiv b.toInt := by
      apply BitVec.toInt_sdiv_of_ne_or_ne
      exact Decidable.not_and_iff_not_or_not.mp h
    refine ⟨hq, ?_⟩
    rw [hq, BitVec.toInt_srem, Int.tdiv_mul_add_tmod]

/-- A divisor above `2 ^ 63`, and a negative one. -/
theorem division_exact_negative :
    ((2 : Dword).toNat = (udivdi3 2 (-1)).toNat * (-1 : Dword).toNat + (umoddi3 2 (-1)).toNat ∧
        (umoddi3 2 (-1)).toNat < (-1 : Dword).toNat) ∧
      (divdi3 7 (-2) * (-2) + moddi3 7 (-2) = 7 ∧
        (divdi3 7 (-2)).toInt = ((7 : Dword).toInt.tdiv (-2 : Dword).toInt).bmod (2 ^ 64) ∧
        (moddi3 7 (-2)).toInt.natAbs < (-2 : Dword).toInt.natAbs ∧
        ((moddi3 7 (-2)).toInt = 0 ∨ (moddi3 7 (-2)).toInt.sign = (7 : Dword).toInt.sign)) ∧
      (¬ ((7 : Dword) = INT64_MIN ∧ (-2 : Dword) = -1#64) →
        (divdi3 7 (-2)).toInt = (7 : Dword).toInt.tdiv (-2 : Dword).toInt ∧
          (7 : Dword).toInt =
            (divdi3 7 (-2)).toInt * (-2 : Dword).toInt + (moddi3 7 (-2)).toInt) :=
  division_exact 2 (-1) 7 (-2) (by decide) (by decide)

end Purv.Builtins
