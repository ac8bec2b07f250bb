import Mathlib.Data.List.Range

/-!
# Tables of checks

A table is gone through up to the first entry that fails its check.  What is done to a state on the
way does not decide where that is.

* `scan` — the checks of the entries, one after the other;
* `scan_ok`, `scan_error` — all pass, or the first that does not;
* `scan_ne_iff` — a certain error never occurs exactly when no entry has it that is reached;
* `foldlM_scan` — a loop that checks and updates is its checks, and its updates.
-/

namespace Checks

variable {E S : Type}

/-- The checks of the first `n` entries. -/
def scan (check : Nat → Except E Unit) (n : Nat) : Except E Unit :=
  (List.range n).foldlM (fun _ i => check i) ()

theorem scan_zero (check : Nat → Except E Unit) : scan check 0 = .ok () := rfl

theorem scan_succ (check : Nat → Except E Unit) (n : Nat) :
    scan check (n + 1) = (scan check n).bind fun _ => check n := by
  unfold scan
  rw [List.range_succ, List.foldlM_append]
  cases (List.range n).foldlM (fun _ i => check i) () with
  | error e => rfl
  | ok u =>
    cases h : check n <;> simp [Except.bind, bind, h, pure, Except.pure]

theorem scan_ok {check : Nat → Except E Unit} {n : Nat} :
    scan check n = .ok () ↔ ∀ i < n, check i = .ok () := by
  induction n with
  | zero => exact iff_of_true rfl fun i hi => absurd hi (Nat.not_lt_zero i)
  | succ n ih =>
    rw [scan_succ]
    constructor
    · intro h i hi
      cases hs : scan check n with
      | error e =>
        rw [hs] at h
        cases h
      | ok u =>
        rw [hs] at h
        rcases Nat.lt_or_eq_of_le (Nat.le_of_lt_succ hi) with hi | rfl
        · exact ih.mp hs i hi
        · exact h
    · intro h
      rw [ih.mpr fun i hi => h i (Nat.lt_succ_of_lt hi)]
      exact h n (Nat.lt_succ_self n)

/-- The error is that of the first entry that fails. -/
theorem scan_error {check : Nat → Except E Unit} {n : Nat} {e : E} :
    scan check n = .error e ↔ ∃ j < n, check j = .error e ∧ ∀ i < j, check i = .ok () := by
  induction n with
  | zero =>
    refine iff_of_false (by rw [scan_zero]; simp) ?_
    rintro ⟨j, hj, _⟩
    exact Nat.not_lt_zero j hj
  | succ n ih =>
    rw [scan_succ]
    cases hs : scan check n with
    | error e' =>
      constructor
      · intro h
        obtain ⟨j, hj, hjs⟩ := ih.mp (hs.trans h)
        exact ⟨j, Nat.lt_succ_of_lt hj, hjs⟩
      · rintro ⟨j, hj, hje, hbefore⟩
        rcases Nat.lt_or_eq_of_le (Nat.le_of_lt_succ hj) with hj | rfl
        · exact hs.symm.trans (ih.mpr ⟨j, hj, hje, hbefore⟩)
        · rw [scan_ok.mpr hbefore] at hs
          cases hs
    | ok u =>
      constructor
      · intro h
        exact ⟨n, Nat.lt_succ_self n, h, scan_ok.mp hs⟩
      · rintro ⟨j, hj, hje, hbefore⟩
        rcases Nat.lt_or_eq_of_le (Nat.le_of_lt_succ hj) with hj | rfl
        · rw [scan_ok.mp hs j hj] at hje
          cases hje
        · exact hje

/-- **A certain error never occurs** exactly when every entry that is reached, as no other stops the
scan before it, is without it. -/
theorem scan_ne_iff {check : Nat → Except E Unit} {n : Nat} {e : E} {safe stops : Nat → Prop}
    (hsafe : ∀ i, check i = .error e ↔ ¬ safe i)
    (hok : ∀ i, check i = .ok () ↔ safe i ∧ ¬ stops i) :
    scan check n ≠ .error e ↔ ∀ j < n, (∀ i < j, ¬ stops i) → safe j := by
  rw [Ne, scan_error]
  constructor
  · intro h j
    induction j using Nat.strongRecOn with
    | ind j ih =>
      intro hj hstops
      by_contra hns
      apply h
      refine ⟨j, hj, (hsafe j).mpr hns, ?_⟩
      intro i hi
      have hi' := ih i hi (Nat.lt_trans hi hj) fun k hk => hstops k (Nat.lt_trans hk hi)
      exact (hok i).mpr ⟨hi', hstops i hi⟩
  · rintro h ⟨j, hj, hje, hbefore⟩
    exact (hsafe j).mp hje (h j hj fun i hi => ((hok i).mp (hbefore i hi)).2)

/-- A scan that passes stops nowhere. -/
theorem scan_ok_iff {check : Nat → Except E Unit} {n : Nat} {safe stops : Nat → Prop}
    (hok : ∀ i, check i = .ok () ↔ safe i ∧ ¬ stops i) :
    scan check n = .ok () ↔
      (∀ j < n, (∀ i < j, ¬ stops i) → safe j) ∧ ∀ i < n, ¬ stops i := by
  rw [scan_ok]
  constructor
  · intro h
    exact ⟨fun j hj _ => ((hok j).mp (h j hj)).1, fun i hi => ((hok i).mp (h i hi)).2⟩
  · rintro ⟨h, hstops⟩ i hi
    exact (hok i).mpr ⟨h i hi fun k hk => hstops k (Nat.lt_trans hk hi), hstops i hi⟩

theorem foldl_keeps {update : S → Nat → S} {I : S → Prop} (hkeep : ∀ s i, I s → I (update s i))
    (n : Nat) {s : S} (hs : I s) : I ((List.range n).foldl update s) := by
  induction n with
  | zero => exact hs
  | succ n ih =>
    rw [List.range_succ, List.foldl_append]
    exact hkeep _ n ih

/-- **A loop whose updates never decide whether it fails** is its checks, and its updates. -/
theorem foldlM_scan {check : Nat → Except E Unit} {update : S → Nat → S}
    {step : S → Nat → Except E S} {I : S → Prop} (hkeep : ∀ s i, I s → I (update s i))
    (hstep : ∀ s i, I s → step s i = (check i).map fun _ => update s i) (n : Nat) {s : S}
    (hs : I s) :
    (List.range n).foldlM step s =
      (scan check n).map fun _ => (List.range n).foldl update s := by
  induction n with
  | zero => rfl
  | succ n ih =>
    rw [List.range_succ, List.foldlM_append, ih, scan_succ, List.foldl_append]
    cases scan check n with
    | error e => rfl
    | ok u =>
      simp only [Except.map, Except.bind, bind, List.foldlM_cons, List.foldlM_nil, List.foldl_cons,
        List.foldl_nil, hstep _ n (foldl_keeps hkeep n hs)]
      cases check n <;> rfl

end Checks
