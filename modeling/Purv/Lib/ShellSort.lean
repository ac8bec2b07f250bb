import Mathlib.Logic.Equiv.Basic

/-!
# Shell sort over a memory

The sort sees a memory through a test of two places and a swap of them.

* `Sorter`, `sift`, `pass`, `passes` — the memory, and the loops over halving gaps;
* `passes_invariant` — what the operations keep, the sort keeps;
* `Arranges` — tests keep the entries and swaps exchange them; `passes_rearranged`, the sort
  rearranges them;
* `passes_sorted` — if the tests decide a total preorder of the entries, the sort orders them: the
  last gap is 1, and its pass is an insertion sort.
-/

namespace ShellSort

variable {S α : Type}

/-- A memory with a test, which may change it, and a swap. -/
structure Sorter (S : Type) where
  test : S → Nat → Nat → Bool × S
  swap : S → Nat → Nat → S

/-- The entry at `j` sinks by steps of `gap`. -/
def sift (m : Sorter S) (gap : Nat) (hg : 0 < gap) (j : Nat) (s : S) : S :=
  if gap ≤ j then
    let t := m.test s (j - gap) j
    if t.1 then t.2 else sift m gap hg (j - gap) (m.swap t.2 (j - gap) j)
  else s
termination_by j

/-- The entries from `i` on sink. -/
def pass (m : Sorter S) (n gap : Nat) (hg : 0 < gap) (i : Nat) (s : S) : S :=
  if i < n then pass m n gap hg (i + 1) (sift m gap hg i s) else s
termination_by n - i

/-- A pass for each gap, which is halved. -/
def passes (m : Sorter S) (n gap : Nat) (s : S) : S :=
  if hg : 0 < gap then passes m n (gap / 2) (pass m n gap hg gap s) else s
termination_by gap

/-! ## Invariants -/

/-- The test and the swap of two places below `n` keep `I`. -/
structure Keeps (m : Sorter S) (n : Nat) (I : S → Prop) : Prop where
  test : ∀ s i j, I s → i < j → j < n → I (m.test s i j).2
  swap : ∀ s i j, I s → i < j → j < n → I (m.swap s i j)

theorem Keeps.and {m : Sorter S} {n : Nat} {I J : S → Prop} (hI : Keeps m n I)
    (hJ : Keeps m n J) : Keeps m n (fun s => I s ∧ J s) := by
  constructor
  · intro s i j hs hij hj
    exact ⟨hI.test s i j hs.1 hij hj, hJ.test s i j hs.2 hij hj⟩
  · intro s i j hs hij hj
    exact ⟨hI.swap s i j hs.1 hij hj, hJ.swap s i j hs.2 hij hj⟩

section
variable {m : Sorter S} {n : Nat} {I : S → Prop}

theorem sift_invariant (hk : Keeps m n I) {gap : Nat} (hg : 0 < gap) {j : Nat} {s : S}
    (hj : j < n) (hs : I s) : I (sift m gap hg j s) := by
  induction j using Nat.strongRecOn generalizing s with
  | ind j ih =>
    unfold sift
    split
    · rename_i hle
      have htest := hk.test s (j - gap) j hs (by omega) hj
      simp only
      split
      · exact htest
      · apply ih (j - gap) (by omega) (by omega)
        exact hk.swap _ _ _ htest (by omega) hj
    · exact hs

theorem pass_invariant (hk : Keeps m n I) {gap : Nat} (hg : 0 < gap) (i : Nat) {s : S}
    (hs : I s) : I (pass m n gap hg i s) := by
  fun_induction pass m n gap hg i s with
  | case1 i s hi ih => exact ih (sift_invariant hk hg hi hs)
  | case2 i s hi => exact hs

/-- **What the operations keep, the sort keeps.** -/
theorem passes_invariant (hk : Keeps m n I) (gap : Nat) {s : S} (hs : I s) :
    I (passes m n gap s) := by
  fun_induction passes m n gap s with
  | case1 gap s hg ih => exact ih (pass_invariant hk hg gap hs)
  | case2 gap s hg => exact hs

/-- The sort ends with the pass of gap 1. -/
theorem passes_last (hk : Keeps m n I) {gap : Nat} (hg : 0 < gap) {s : S} (hs : I s) :
    ∃ s', I s' ∧ passes m n gap s = pass m n 1 Nat.one_pos 1 s' := by
  induction gap using Nat.strongRecOn generalizing s with
  | ind gap ih =>
    rw [passes, dif_pos hg]
    rcases Nat.lt_or_ge 1 gap with h1 | h1
    · exact ih (gap / 2) (by omega) (by omega) (pass_invariant hk hg gap hs)
    · obtain rfl : gap = 1 := by omega
      refine ⟨s, hs, ?_⟩
      rw [passes, dif_neg (by omega)]

end

/-! ## Rearrangement -/

/-- Tests keep the entries, swaps exchange two. -/
structure Arranges (m : Sorter S) (n : Nat) (view : S → Nat → α) : Prop where
  test : ∀ s i j, i < j → j < n → ∀ k < n, view (m.test s i j).2 k = view s k
  swap : ∀ s i j, i < j → j < n → ∀ k < n, view (m.swap s i j) k = view s (Equiv.swap i j k)

/-- The entries of `g` below `n` are those of `f` in another order. -/
def Rearranged (n : Nat) (f g : Nat → α) : Prop :=
  ∃ σ : Equiv.Perm Nat, (∀ k, σ k < n ↔ k < n) ∧ ∀ k < n, g k = f (σ k)

theorem Rearranged.refl (n : Nat) (f : Nat → α) : Rearranged n f f :=
  ⟨Equiv.refl _, fun _ => Iff.rfl, fun _ _ => rfl⟩

theorem swap_lt {i j n : Nat} (hi : i < n) (hj : j < n) (k : Nat) :
    Equiv.swap i j k < n ↔ k < n := by
  rw [Equiv.swap_apply_def]
  split
  · rename_i h
    rw [h]
    exact iff_of_true hj hi
  · split
    · rename_i h
      rw [h]
      exact iff_of_true hi hj
    · exact Iff.rfl

theorem Rearranged.swap {n : Nat} {f g h : Nat → α} (hr : Rearranged n f g) {i j : Nat}
    (hi : i < n) (hj : j < n) (hh : ∀ k < n, h k = g (Equiv.swap i j k)) : Rearranged n f h := by
  obtain ⟨σ, hσ, hg⟩ := hr
  refine ⟨(Equiv.swap i j).trans σ, ?_, ?_⟩
  · intro k
    rw [Equiv.trans_apply, hσ, swap_lt hi hj]
  · intro k hk
    rw [hh k hk, hg _ ((swap_lt hi hj k).mpr hk), Equiv.trans_apply]

theorem Arranges.keeps {m : Sorter S} {n : Nat} {view : S → Nat → α} (ha : Arranges m n view)
    (f : Nat → α) : Keeps m n (fun s => Rearranged n f (view s)) := by
  constructor
  · rintro s i j ⟨σ, hσ, hs⟩ hij hj
    exact ⟨σ, hσ, fun k hk => by rw [ha.test s i j hij hj k hk, hs k hk]⟩
  · intro s i j hs hij hj
    exact hs.swap (Nat.lt_trans hij hj) hj (ha.swap s i j hij hj)

/-- **The sort rearranges** the entries. -/
theorem passes_rearranged {m : Sorter S} {n : Nat} {view : S → Nat → α} (ha : Arranges m n view)
    (gap : Nat) (s : S) : Rearranged n (view s) (view (passes m n gap s)) :=
  passes_invariant (ha.keeps (view s)) gap (Rearranged.refl n (view s))

/-! ## Order -/

/-- The relation is total and transitive on a set. -/
structure TotalPreorder (A : Set α) (le : α → α → Prop) : Prop where
  total : ∀ x ∈ A, ∀ y ∈ A, le x y ∨ le y x
  trans : ∀ x ∈ A, ∀ y ∈ A, ∀ z ∈ A, le x y → le y z → le x z

/-- In the memories of `I` the entries are in `A`, and the test is `le`. -/
structure Decides (m : Sorter S) (n : Nat) (view : S → Nat → α) (I : S → Prop) (A : Set α)
    (le : α → α → Prop) : Prop where
  mem : ∀ s, I s → ∀ k < n, view s k ∈ A
  test : ∀ s, I s → ∀ i j, i < j → j < n → ((m.test s i j).1 ↔ le (view s i) (view s j))

/-- The entries below `i` are in order. -/
def SortedBelow (le : α → α → Prop) (f : Nat → α) (i : Nat) : Prop :=
  ∀ a b, a < b → b < i → le (f a) (f b)

/-- The entries up to `i` are in order but for the one at `j`, which is at most the later ones. -/
structure SortedBut (le : α → α → Prop) (f : Nat → α) (i j : Nat) : Prop where
  others : ∀ a b, a < b → b ≤ i → a ≠ j → b ≠ j → le (f a) (f b)
  later : ∀ b, j < b → b ≤ i → le (f j) (f b)

section
variable {m : Sorter S} {n : Nat} {view : S → Nat → α} {I : S → Prop} {A : Set α}
  {le : α → α → Prop}

theorem SortedBut.congr {f g : Nat → α} {i j : Nat} (h : SortedBut le f i j)
    (hg : ∀ k ≤ i, g k = f k) (hj : j ≤ i) : SortedBut le g i j := by
  constructor
  · intro a b hab hb ha hbj
    rw [hg a (by omega), hg b hb]
    exact h.others a b hab hb ha hbj
  · intro b hjb hb
    rw [hg j hj, hg b hb]
    exact h.later b hjb hb

/-- An entry at least the one before it is in its place. -/
theorem SortedBut.stop {f : Nat → α} {i j : Nat} (hle : TotalPreorder A le)
    (hA : ∀ k ≤ i, f k ∈ A) (h : SortedBut le f i j) (hj : j ≤ i) (hpos : 0 < j)
    (hin : le (f (j - 1)) (f j)) : SortedBelow le f (i + 1) := by
  intro a b hab hb
  by_cases haj : a = j
  · rw [haj]
    exact h.later b (haj ▸ hab) (by omega)
  · by_cases hbj : b = j
    · rw [hbj]
      by_cases ha1 : a = j - 1
      · rw [ha1]
        exact hin
      · exact hle.trans _ (hA a (by omega)) _ (hA (j - 1) (by omega)) _ (hA j hj)
          (h.others a (j - 1) (by omega) (by omega) haj (by omega)) hin
    · exact h.others a b hab (by omega) haj hbj

/-- An entry below the one before it sinks past it. -/
theorem SortedBut.sink {f g : Nat → α} {i j : Nat} (h : SortedBut le f i j) (hj : j ≤ i)
    (hpos : 0 < j) (hout : le (f j) (f (j - 1)))
    (hg : ∀ k ≤ i, g k = f (Equiv.swap (j - 1) j k)) : SortedBut le g i (j - 1) := by
  have hj1 : g (j - 1) = f j := by rw [hg _ (by omega), Equiv.swap_apply_left]
  have hj0 : g j = f (j - 1) := by rw [hg _ hj, Equiv.swap_apply_right]
  have hrest : ∀ k ≤ i, k ≠ j - 1 → k ≠ j → g k = f k := by
    intro k hk h1 h2
    rw [hg k hk, Equiv.swap_apply_of_ne_of_ne h1 h2]
  constructor
  · intro a b hab hb ha hb1
    by_cases haj : a = j
    · rw [haj, hj0, hrest b hb hb1 (by omega)]
      exact h.others (j - 1) b (by omega) hb (by omega) (by omega)
    · rw [hrest a (by omega) ha haj]
      by_cases hbj : b = j
      · rw [hbj, hj0]
        exact h.others a (j - 1) (by omega) (by omega) haj (by omega)
      · rw [hrest b hb hb1 hbj]
        exact h.others a b hab hb haj hbj
  · intro b hb1 hb
    rw [hj1]
    by_cases hbj : b = j
    · rw [hbj, hj0]
      exact hout
    · rw [hrest b hb (by omega) hbj]
      exact h.later b (by omega) hb

/-- **One insertion**: the entry at `j` sinks to its place. -/
theorem sift_sorted (hk : Keeps m n I) (ha : Arranges m n view)
    (hd : Decides m n view I A le) (hle : TotalPreorder A le) {i : Nat} (hi : i < n) {j : Nat}
    {s : S} (hj : j ≤ i) (hs : I s) (hb : SortedBut le (view s) i j) :
    SortedBelow le (view (sift m 1 Nat.one_pos j s)) (i + 1) := by
  induction j generalizing s with
  | zero =>
    rw [sift, if_neg (by omega)]
    intro a b hab hbi
    by_cases h0 : a = 0
    · rw [h0]
      exact hb.later b (by omega) (by omega)
    · exact hb.others a b hab (by omega) h0 (by omega)
  | succ j ih =>
    have htest := hk.test s j (j + 1) hs (by omega) (by omega)
    have hb' : SortedBut le (view (m.test s j (j + 1)).2) i (j + 1) :=
      hb.congr (fun k hk => ha.test s j (j + 1) (by omega) (by omega) k (by omega)) hj
    have hA := fun k (hk : k ≤ i) => hd.mem _ htest k (Nat.lt_of_le_of_lt hk hi)
    have hview := fun k (hk : k ≤ i) =>
      ha.test s j (j + 1) (by omega) (by omega) k (Nat.lt_of_le_of_lt hk hi)
    have hdec := hd.test s hs j (j + 1) (by omega) (by omega)
    rw [← hview j (by omega), ← hview (j + 1) hj] at hdec
    rw [sift, if_pos (by omega), Nat.add_sub_cancel]
    simp only
    by_cases hin : (m.test s j (j + 1)).1
    · rw [if_pos hin]
      exact hb'.stop hle hA hj (Nat.succ_pos j) (hdec.mp hin)
    · rw [if_neg hin]
      have hout : le (view (m.test s j (j + 1)).2 (j + 1)) (view (m.test s j (j + 1)).2 j) :=
        (hle.total _ (hA (j + 1) hj) _ (hA j (by omega))).resolve_right fun h =>
          hin (hdec.mpr h)
      apply ih (by omega) (hk.swap _ _ _ htest (by omega) (by omega))
      exact hb'.sink hj (Nat.succ_pos j) hout fun k hk =>
        ha.swap _ j (j + 1) (by omega) (by omega) k (by omega)

/-- The pass of gap 1 is an insertion sort. -/
theorem pass_sorted (hk : Keeps m n I) (ha : Arranges m n view)
    (hd : Decides m n view I A le) (hle : TotalPreorder A le) (i : Nat) (s : S) (hi : i ≤ n)
    (hs : I s) (hb : SortedBelow le (view s) i) :
    SortedBelow le (view (pass m n 1 Nat.one_pos i s)) n := by
  fun_induction pass m n 1 Nat.one_pos i s with
  | case1 i s hi' ih =>
    apply ih (by omega) (sift_invariant hk _ hi' hs)
    apply sift_sorted hk ha hd hle hi' (Nat.le_refl i) hs
    constructor
    · intro a b hab hbi _ hbne
      exact hb a b hab (by omega)
    · intro b hib hbi
      omega
  | case2 i s hi' =>
    obtain rfl : i = n := by omega
    exact hb

/-- **The sort orders** the entries by a total preorder that the tests decide. -/
theorem passes_sorted (hk : Keeps m n I) (ha : Arranges m n view)
    (hd : Decides m n view I A le) (hle : TotalPreorder A le) {s : S} (hs : I s) :
    SortedBelow le (view (passes m n (n / 2) s)) n := by
  rcases Nat.lt_or_ge n 2 with hn | hn
  · intro a b hab hb
    omega
  · obtain ⟨s', hs', hlast⟩ := passes_last hk (show 0 < n / 2 by omega) hs
    rw [hlast]
    apply pass_sorted hk ha hd hle 1 s' (by omega) hs'
    intro a b hab hb
    omega

end

end ShellSort
