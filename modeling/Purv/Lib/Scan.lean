import Mathlib.Tactic.Basic

/-!
# Scans

A scan asks a test about the indices from a start on, one after the other, until one of them gets an
answer.

* `scan` — the answer, and the number of indices that were looked at;
* `scan_hit`, `scan_miss` — the first answer ends it, and there may be none;
* `scan_congr`, `scan_bound` — a scan depends on the indices it looks at only.
-/

namespace Scan

variable {α : Type}

/-- The first answer of `test` among `n` indices from `i` on, `d` if there is none, and the index
behind the last one looked at. -/
def scan (test : Nat → Option α) (d : α) : Nat → Nat → α × Nat
  | 0, i => (d, i)
  | n + 1, i =>
    match test i with
    | some v => (v, i + 1)
    | none => scan test d n (i + 1)

variable {test test' : Nat → Option α} {d v : α} {n m i k : Nat}

/-- Indices without an answer are passed over. -/
theorem scan_skip (h : ∀ j, i ≤ j → j < i + k → test j = none) :
    scan test d (k + n) i = scan test d n (i + k) := by
  induction k generalizing i with
  | zero => rw [Nat.zero_add, Nat.add_zero]
  | succ k ih =>
    have hi : test i = none := h i (Nat.le_refl i) (by omega)
    rw [Nat.succ_add, scan, hi]
    refine (ih fun j hij hj => h j (by omega) (by omega)).trans ?_
    rw [Nat.succ_add_eq_add_succ]

/-- The first answer ends the scan. -/
theorem scan_hit (hk : k < n) (hnone : ∀ j, j < k → test j = none) (hv : test k = some v) :
    scan test d n 0 = (v, k + 1) := by
  obtain ⟨m, rfl⟩ : ∃ m, n = k + (m + 1) := ⟨n - k - 1, by omega⟩
  rw [scan_skip fun j _ hj => hnone j (by omega), Nat.zero_add, scan, hv]

/-- No answer. -/
theorem scan_miss (hnone : ∀ j, j < n → test j = none) : scan test d n 0 = (d, n) := by
  have hskip : scan test d (n + 0) 0 = scan test d 0 (0 + n) :=
    scan_skip fun j _ hj => hnone j (by omega)
  rwa [Nat.add_zero, Nat.zero_add, scan] at hskip

/-- A scan is of its indices only. -/
theorem scan_congr (h : ∀ j, i ≤ j → j < i + n → test j = test' j) :
    scan test d n i = scan test' d n i := by
  induction n generalizing i with
  | zero => rfl
  | succ n ih =>
    rw [scan, scan, h i (Nat.le_refl i) (by omega), ih fun j hij hj => h j (by omega) (by omega)]

/-- The number of indices looked at is within the bound. -/
theorem scan_le : (scan test d n i).2 ≤ i + n := by
  induction n generalizing i with
  | zero => exact Nat.le_refl i
  | succ n ih =>
    rw [scan]
    cases test i with
    | none => exact Nat.le_trans ih (by omega)
    | some v => exact Nat.add_le_add_left (by omega) i

/-- The least index with an answer. -/
theorem exists_first (hk : (test k).isSome) :
    ∃ j v, j ≤ k ∧ test j = some v ∧ ∀ l, l < j → test l = none := by
  induction k using Nat.strongRecOn with
  | _ k ih =>
    by_cases hsmaller : ∃ l, l < k ∧ (test l).isSome
    · obtain ⟨l, hlk, hl⟩ := hsmaller
      obtain ⟨j, v, hjl, hj⟩ := ih l hlk hl
      exact ⟨j, v, by omega, hj⟩
    · obtain ⟨v, hv⟩ := Option.isSome_iff_exists.mp hk
      refine ⟨k, v, Nat.le_refl k, hv, fun l hl => ?_⟩
      rw [← Option.not_isSome_iff_eq_none]
      exact fun hs => hsmaller ⟨l, hl, hs⟩

/-- Behind an index with an answer the bound does not matter. -/
theorem scan_bound (hk : (test k).isSome) (hkm : k < m) (hkn : k < n) :
    scan test d m 0 = scan test d n 0 := by
  obtain ⟨j, v, hjk, hv, hnone⟩ := exists_first hk
  rw [scan_hit (by omega) hnone hv, scan_hit (by omega) hnone hv]

end Scan
