import Mathlib.Logic.Function.Basic
import Mathlib.Data.List.Basic

/-!
# A bounded stack in a ring

The newest entry is pushed and popped at one end; a push onto a full ring overwrites the oldest.

* `Buffer`, `push`, `pop`, `top` — the ring;
* `contents` — the entries, the newest first;
* `contents_push`, `contents_pop`, `contents_top` — the ring is a stack that keeps the `N` newest.
-/

namespace RingStack

open Function

variable {α : Type}

/-- `count` entries from `head` on, around `N` slots. -/
structure Buffer (α : Type) where
  slot : Nat → α
  head : Nat
  count : Nat

/-- The entry goes after the newest; onto a full ring, over the oldest. -/
def push (N : Nat) (r : Buffer α) (a : α) : Buffer α where
  slot := update r.slot ((r.head + r.count) % N) a
  head := if r.count = N then (r.head + 1) % N else r.head
  count := if r.count = N then N else r.count + 1

/-- The newest entry goes. -/
def pop (r : Buffer α) : Buffer α := { r with count := r.count - 1 }

/-- The newest entry. -/
def top (N : Nat) (r : Buffer α) : α := r.slot ((r.head + r.count - 1) % N)

/-- The entries, the newest first. -/
def contents (N : Nat) (r : Buffer α) : List α :=
  (List.range r.count).map fun i => r.slot ((r.head + (r.count - 1 - i)) % N)

theorem contents_length (N : Nat) (r : Buffer α) : (contents N r).length = r.count := by
  simp [contents]

theorem contents_nil {N : Nat} {r : Buffer α} : contents N r = [] ↔ r.count = 0 := by
  rw [← List.length_eq_zero_iff, contents_length]

/-- Two places within one round are different slots. -/
theorem place_ne {N h i j : Nat} (hi : i < j) (hj : j < i + N) : (h + i) % N ≠ (h + j) % N := by
  intro heq
  have hdvd : N ∣ (h + j) - (h + i) :=
    Nat.dvd_of_mod_eq_zero (Nat.sub_mod_eq_zero_of_mod_eq heq.symm)
  obtain ⟨k, hk⟩ := hdvd
  have hk0 : k ≠ 0 := by
    rintro rfl
    omega
  have : N * 1 ≤ N * k := Nat.mul_le_mul_left N (by omega)
  omega

/-- **A push** puts the entry first, and drops what is beyond `N`. -/
theorem contents_push {N : Nat} (hN : 0 < N) {r : Buffer α} (hr : r.count ≤ N) (a : α) :
    contents N (push N r a) = (a :: contents N r).take N := by
  by_cases hfull : r.count = N
  · obtain ⟨m, rfl⟩ : ∃ m, N = m + 1 := ⟨N - 1, by omega⟩
    have hlast : ∀ i < m, ((r.head + 1) % (m + 1) + (m - (i + 1))) % (m + 1) =
        (r.head + (m - i)) % (m + 1) := by
      intro i hi
      rw [Nat.mod_add_mod]
      congr 1
      omega
    have hfirst : ((r.head + 1) % (m + 1) + m) % (m + 1) = (r.head + (m + 1)) % (m + 1) := by
      rw [Nat.mod_add_mod]
      congr 1
      omega
    unfold contents push
    simp only [hfull, if_true, List.take_succ_cons, Nat.add_sub_cancel]
    rw [List.range_succ_eq_map, List.map_cons, List.map_map, Nat.sub_zero, hfirst, update_self]
    congr 1
    rw [← List.range_succ_eq_map, ← List.map_take, List.take_range, Nat.min_eq_left (by omega)]
    apply List.map_congr_left
    intro i hi
    rw [List.mem_range] at hi
    simp only [Function.comp_apply, Nat.succ_eq_add_one]
    rw [hlast i hi, update_of_ne (place_ne (by omega) (by omega))]
  · have hlt : r.count < N := by omega
    have htake : (a :: contents N r).take N = a :: contents N r := by
      apply List.take_of_length_le
      rw [List.length_cons, contents_length]
      omega
    rw [htake]
    unfold contents push
    simp only [if_neg hfull, Nat.add_sub_cancel]
    rw [List.range_succ_eq_map, List.map_cons, List.map_map, Nat.sub_zero, update_self]
    congr 1
    apply List.map_congr_left
    intro i hi
    rw [List.mem_range] at hi
    simp only [Function.comp_apply, Nat.succ_eq_add_one]
    rw [show r.count - (i + 1) = r.count - 1 - i by omega,
      update_of_ne (place_ne (by omega) (by omega))]

/-- **A pop** drops the first. -/
theorem contents_pop (N : Nat) (r : Buffer α) : contents N (pop r) = (contents N r).tail := by
  unfold contents pop
  simp only
  cases hc : r.count with
  | zero => rfl
  | succ c =>
    rw [List.range_succ_eq_map, List.map_cons, List.tail_cons, List.map_map, Nat.add_sub_cancel]
    apply List.map_congr_left
    intro i _
    simp only [Function.comp_apply, Nat.succ_eq_add_one]
    congr 3
    omega

/-- The first of the contents is the top. -/
theorem contents_top {N : Nat} {r : Buffer α} {a : α} {l : List α} (h : contents N r = a :: l) :
    top N r = a := by
  unfold contents at h
  cases hc : r.count with
  | zero =>
    rw [hc] at h
    cases h
  | succ c =>
    rw [hc, List.range_succ_eq_map, List.map_cons] at h
    rw [← (List.cons.inj h).1]
    unfold top
    rw [hc]
    rfl

theorem push_count {N : Nat} {r : Buffer α} (hr : r.count ≤ N) (a : α) : (push N r a).count ≤ N := by
  unfold push
  simp only
  split <;> omega

end RingStack
