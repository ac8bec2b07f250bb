import Purv.State
import Purv.Lib.ShellSort

/-!
# `qsort` of the guest runtime (`sqlite/rt.c`)

* `qswap`, `qsort` — over the guest's memory, with a record of what is touched and compared;
* `qswap_spec` — two places exchange their bytes;
* `sorter_arranges`, `sorter_keeps` — the byte memory is a memory of the sort;
* `qsort_sorts` — the sort rearranges the array, touches nothing else, and orders it by a comparison
  that is a total preorder.
-/

namespace Purv.Rt

open Function ShellSort

variable {U : Type}

/-- The memory, what the comparison keeps between its calls, the bytes that `qswap` reads and
writes, and the pointers that the comparison is given. -/
structure Sorting (U : Type) where
  mem : Word → Byte
  user : U
  touched : List Word
  compared : List (Word × Word)

/-- A comparison function: its memory, what it keeps, and its two pointers. -/
abbrev Compare (U : Type) := U → (Word → Byte) → Word → Word → Int × U

/-- `qswap`. -/
def qswap (s : Sorting U) (a b : Word) : Nat → Sorting U
  | 0 => s
  | n + 1 =>
    let t := s.mem a
    qswap { s with mem := update (update s.mem a (s.mem b)) b t, touched := b :: a :: s.touched }
      (a + 1#32) (b + 1#32) n

/-- `a + k * sz`. -/
def element (base : Word) (sz k : Nat) : Word := base + BitVec.ofNat 32 (k * sz)

/-- What `qsort` does with two elements: `cmp(x, y) <= 0`, and `qswap`. -/
def sorter (cmp : Compare U) (base : Word) (sz : Nat) : Sorter (Sorting U) where
  test s i j :=
    let x := element base sz i
    let y := element base sz j
    let (c, user) := cmp s.user s.mem x y
    (c ≤ 0, { s with user := user, compared := (x, y) :: s.compared })
  swap s i j := qswap s (element base sz i) (element base sz j) sz

/-- `qsort`: the loops over `gap`, `i` and `j` are `passes`, `pass` and `sift`. -/
def qsort (cmp : Compare U) (base : Word) (n sz : Nat) (s : Sorting U) : Sorting U :=
  passes (sorter cmp base sz) n (n / 2) s

/-! ## Addresses -/

/-- The bytes of element `k`. -/
def bytesOf (base : Word) (sz : Nat) (s : Sorting U) (k : Nat) : List Byte :=
  (List.range sz).map fun t => s.mem (element base sz k + BitVec.ofNat 32 t)

/-- A byte of the array. -/
def InArray (base : Word) (n sz : Nat) (a : Word) : Prop :=
  ∃ k < n, ∃ t < sz, a = element base sz k + BitVec.ofNat 32 t

/-- An element of the array. -/
def IsElement (base : Word) (n sz : Nat) (a : Word) : Prop := ∃ k < n, a = element base sz k

theorem byte_lt {n sz k t : Nat} (hk : k < n) (ht : t < sz) : k * sz + t < n * sz :=
  calc k * sz + t < k * sz + sz := Nat.add_lt_add_left ht _
    _ = (k + 1) * sz := (Nat.succ_mul k sz).symm
    _ ≤ n * sz := Nat.mul_le_mul_right sz hk

theorem element_byte (base : Word) (sz k t : Nat) :
    element base sz k + BitVec.ofNat 32 t = base + BitVec.ofNat 32 (k * sz + t) := by
  rw [element, BitVec.ofNat_add, BitVec.add_assoc]

theorem offset_inj {base : Word} {p q : Nat} (hp : p < 2 ^ 32) (hq : q < 2 ^ 32)
    (h : base + BitVec.ofNat 32 p = base + BitVec.ofNat 32 q) : p = q := by
  have hpq := congrArg BitVec.toNat (BitVec.add_right_inj base |>.mp h)
  rwa [BitVec.toNat_ofNat, BitVec.toNat_ofNat, Nat.mod_eq_of_lt hp, Nat.mod_eq_of_lt hq] at hpq

/-- **Bytes of the array are distinct**: the array is within the address space. -/
theorem byte_inj {base : Word} {n sz i j t u : Nat} (hfit : n * sz ≤ 2 ^ 32) (hi : i < n)
    (hj : j < n) (ht : t < sz) (hu : u < sz)
    (h : element base sz i + BitVec.ofNat 32 t = element base sz j + BitVec.ofNat 32 u) :
    i = j ∧ t = u := by
  rw [element_byte, element_byte] at h
  have hoff := offset_inj (Nat.lt_of_lt_of_le (byte_lt hi ht) hfit)
    (Nat.lt_of_lt_of_le (byte_lt hj hu) hfit) h
  have hdiv := congrArg (· / sz) hoff
  simp only [Nat.mul_comm _ sz, Nat.mul_add_div (Nat.zero_lt_of_lt ht), Nat.div_eq_of_lt ht,
    Nat.div_eq_of_lt hu, Nat.add_zero] at hdiv
  subst hdiv
  exact ⟨rfl, by omega⟩

/-! ## `qswap` -/

/-- Two places of `n` bytes with no byte in common. -/
def Apart (a b : Word) (n : Nat) : Prop :=
  (∀ t < n, ∀ u < n, a + BitVec.ofNat 32 t ≠ b + BitVec.ofNat 32 u) ∧
    (∀ t < n, ∀ u < n, a + BitVec.ofNat 32 t = a + BitVec.ofNat 32 u → t = u) ∧
    ∀ t < n, ∀ u < n, b + BitVec.ofNat 32 t = b + BitVec.ofNat 32 u → t = u

theorem add_succ (a : Word) (t : Nat) :
    a + 1#32 + BitVec.ofNat 32 t = a + BitVec.ofNat 32 (t + 1) := by
  rw [Nat.add_comm t 1, BitVec.ofNat_add, BitVec.add_assoc]

theorem Apart.tail {a b : Word} {n : Nat} (h : Apart a b (n + 1)) :
    Apart (a + 1#32) (b + 1#32) n := by
  obtain ⟨hab, ha, hb⟩ := h
  unfold Apart
  simp only [add_succ]
  refine ⟨?_, ?_, ?_⟩
  · intro t ht u hu
    exact hab (t + 1) (by omega) (u + 1) (by omega)
  · intro t ht u hu heq
    have := ha (t + 1) (by omega) (u + 1) (by omega) heq
    omega
  · intro t ht u hu heq
    have := hb (t + 1) (by omega) (u + 1) (by omega) heq
    omega

/-- What `qswap` leaves: all bytes but those of its two places. -/
theorem qswap_other (s : Sorting U) (a b : Word) (n : Nat) {c : Word}
    (hc : ∀ t < n, c ≠ a + BitVec.ofNat 32 t ∧ c ≠ b + BitVec.ofNat 32 t) :
    (qswap s a b n).mem c = s.mem c := by
  induction n generalizing s a b with
  | zero => rfl
  | succ n ih =>
    have h0 := hc 0 (Nat.succ_pos n)
    simp only [BitVec.add_zero] at h0
    rw [qswap, ih]
    · simp only [update_of_ne h0.2, update_of_ne h0.1]
    · intro t ht
      rw [add_succ, add_succ]
      exact hc (t + 1) (by omega)

/-- **`qswap`** exchanges the bytes of its places. -/
theorem qswap_spec (s : Sorting U) (a b : Word) (n : Nat) (h : Apart a b n) :
    ∀ t < n, (qswap s a b n).mem (a + BitVec.ofNat 32 t) = s.mem (b + BitVec.ofNat 32 t) ∧
      (qswap s a b n).mem (b + BitVec.ofNat 32 t) = s.mem (a + BitVec.ofNat 32 t) := by
  induction n generalizing s a b with
  | zero =>
    intro t ht
    omega
  | succ n ih =>
    intro t ht
    obtain ⟨hab, ha, hb⟩ := h
    have h00 := hab 0 (Nat.succ_pos n) 0 (Nat.succ_pos n)
    simp only [BitVec.add_zero] at h00
    rw [qswap]
    cases t with
    | zero =>
      -- the rest does not come back to the first bytes
      simp only [BitVec.add_zero]
      rw [qswap_other, qswap_other]
      · simp only [update_of_ne h00, update_self, and_self]
      · intro u hu
        rw [add_succ, add_succ]
        constructor
        · intro heq
          exact hab (u + 1) (by omega) 0 (Nat.succ_pos n) (by simpa using heq.symm)
        · intro heq
          have := hb 0 (Nat.succ_pos n) (u + 1) (by omega) (by simpa using heq)
          omega
      · intro u hu
        rw [add_succ, add_succ]
        constructor
        · intro heq
          have := ha 0 (Nat.succ_pos n) (u + 1) (by omega) (by simpa using heq)
          omega
        · intro heq
          exact hab 0 (Nat.succ_pos n) (u + 1) (by omega) (by simpa using heq)
    | succ t =>
      have hrest := ih { s with mem := update (update s.mem a (s.mem b)) b (s.mem a)
                                touched := b :: a :: s.touched }
        (a + 1#32) (b + 1#32) (Apart.tail ⟨hab, ha, hb⟩) t (by omega)
      rw [add_succ, add_succ] at hrest
      have haa : a + BitVec.ofNat 32 (t + 1) ≠ a := by
        intro heq
        have := ha (t + 1) ht 0 (Nat.succ_pos n) (by simpa using heq)
        omega
      have hbb : b + BitVec.ofNat 32 (t + 1) ≠ b := by
        intro heq
        have := hb (t + 1) ht 0 (Nat.succ_pos n) (by simpa using heq)
        omega
      have hba : b + BitVec.ofNat 32 (t + 1) ≠ a := by
        intro heq
        exact hab 0 (Nat.succ_pos n) (t + 1) ht (by simpa using heq.symm)
      have hab' : a + BitVec.ofNat 32 (t + 1) ≠ b := by
        intro heq
        exact hab (t + 1) ht 0 (Nat.succ_pos n) (by simpa using heq)
      simp only [update_of_ne hbb, update_of_ne hba, update_of_ne haa, update_of_ne hab'] at hrest
      exact hrest

theorem qswap_touched (s : Sorting U) (a b : Word) (n : Nat) (P : Word → Prop)
    (hs : ∀ c ∈ s.touched, P c)
    (hP : ∀ t < n, P (a + BitVec.ofNat 32 t) ∧ P (b + BitVec.ofNat 32 t)) :
    ∀ c ∈ (qswap s a b n).touched, P c := by
  induction n generalizing s a b with
  | zero => exact hs
  | succ n ih =>
    have h0 := hP 0 (Nat.succ_pos n)
    simp only [BitVec.add_zero] at h0
    rw [qswap]
    apply ih
    · intro c hc
      simp only [List.mem_cons] at hc
      rcases hc with rfl | rfl | hc
      · exact h0.2
      · exact h0.1
      · exact hs c hc
    · intro t ht
      rw [add_succ, add_succ]
      exact hP (t + 1) (by omega)

theorem qswap_compared (s : Sorting U) (a b : Word) (n : Nat) :
    (qswap s a b n).compared = s.compared := by
  induction n generalizing s a b with
  | zero => rfl
  | succ n ih =>
    rw [qswap, ih]

/-! ## The sort -/

section
variable {cmp : Compare U} {base : Word} {n sz : Nat}

theorem elements_apart (base : Word) (hfit : n * sz ≤ 2 ^ 32) {i j : Nat} (hij : i < j) (hj : j < n) :
    Apart (element base sz i) (element base sz j) sz := by
  have hi : i < n := Nat.lt_trans hij hj
  refine ⟨?_, ?_, ?_⟩
  · intro t ht u hu heq
    have := (byte_inj hfit hi hj ht hu heq).1
    omega
  · intro t ht u hu heq
    exact (byte_inj hfit hi hi ht hu heq).2
  · intro t ht u hu heq
    exact (byte_inj hfit hj hj ht hu heq).2

theorem sorter_arranges (hfit : n * sz ≤ 2 ^ 32) :
    Arranges (sorter cmp base sz) n (bytesOf base sz) := by
  constructor
  · intro s i j _ _ k _
    rfl
  · intro s i j hij hj k hk
    have hswap := qswap_spec s _ _ sz (elements_apart base hfit hij hj)
    apply List.map_congr_left
    intro t ht
    rw [List.mem_range] at ht
    change (qswap s (element base sz i) (element base sz j) sz).mem _ = _
    by_cases hki : k = i
    · rw [hki, Equiv.swap_apply_left]
      exact (hswap t ht).1
    · by_cases hkj : k = j
      · rw [hkj, Equiv.swap_apply_right]
        exact (hswap t ht).2
      · rw [Equiv.swap_apply_of_ne_of_ne hki hkj]
        apply qswap_other
        intro u hu
        constructor
        · intro heq
          exact hki (byte_inj hfit hk (Nat.lt_trans hij hj) ht hu heq).1
        · intro heq
          exact hkj (byte_inj hfit hk hj ht hu heq).1

/-- The bytes outside the array are those of `mem`. -/
def Outside (base : Word) (n sz : Nat) (mem : Word → Byte) (s : Sorting U) : Prop :=
  ∀ a, ¬ InArray base n sz a → s.mem a = mem a

theorem sorter_outside (cmp : Compare U) (mem : Word → Byte) :
    Keeps (sorter cmp base sz) n (Outside base n sz mem) := by
  constructor
  · intro s i j hs _ _
    exact hs
  · intro s i j hs hij hj a ha
    rw [← hs a ha]
    apply qswap_other
    intro t ht
    constructor
    · rintro rfl
      exact ha ⟨i, Nat.lt_trans hij hj, t, ht, rfl⟩
    · rintro rfl
      exact ha ⟨j, hj, t, ht, rfl⟩

/-- What the sort touches and compares, and what it leaves. -/
structure Within (base : Word) (n sz : Nat) (mem : Word → Byte) (s : Sorting U) : Prop where
  outside : Outside base n sz mem s
  touched : ∀ a ∈ s.touched, InArray base n sz a
  compared : ∀ p ∈ s.compared, IsElement base n sz p.1 ∧ IsElement base n sz p.2

theorem sorter_keeps (cmp : Compare U) (base : Word) (n sz : Nat) (mem : Word → Byte) :
    Keeps (sorter cmp base sz) n (Within base n sz mem) := by
  constructor
  · intro s i j hs hij hj
    refine ⟨hs.outside, hs.touched, ?_⟩
    intro p hp
    rcases List.mem_cons.mp hp with rfl | hp
    · exact ⟨⟨i, Nat.lt_trans hij hj, rfl⟩, ⟨j, hj, rfl⟩⟩
    · exact hs.compared p hp
  · intro s i j hs hij hj
    have hin : ∀ t < sz, InArray base n sz (element base sz i + BitVec.ofNat 32 t) ∧
        InArray base n sz (element base sz j + BitVec.ofNat 32 t) := fun t ht =>
      ⟨⟨i, Nat.lt_trans hij hj, t, ht, rfl⟩, ⟨j, hj, t, ht, rfl⟩⟩
    refine ⟨(sorter_outside cmp mem).swap s i j hs.outside hij hj,
      qswap_touched s _ _ sz _ hs.touched hin, ?_⟩
    intro p hp
    change p ∈ (qswap s _ _ sz).compared at hp
    rw [qswap_compared] at hp
    exact hs.compared p hp

end

/-- A memory that the sort of `s` may come to: outside the array as before, in it a rearrangement. -/
def Reachable (base : Word) (n sz : Nat) (s s' : Sorting U) : Prop :=
  Outside base n sz s.mem s' ∧ Rearranged n (bytesOf base sz s) (bytesOf base sz s')

/-- The comparison is a total preorder of the elements, by their bytes. -/
structure Preorders (cmp : Compare U) (base : Word) (n sz : Nat) (s : Sorting U)
    (le : List Byte → List Byte → Prop) : Prop where
  preorder : TotalPreorder {x | ∃ k < n, x = bytesOf base sz s k} le
  decides : ∀ s', Reachable base n sz s s' → ∀ i < n, ∀ j < n,
    ((cmp s'.user s'.mem (element base sz i) (element base sz j)).1 ≤ 0 ↔
      le (bytesOf base sz s' i) (bytesOf base sz s' j))

/-- **`qsort` sorts**: it rearranges the array and touches nothing else, and orders it by a
comparison that is a total preorder. -/
theorem qsort_sorts (cmp : Compare U) (base : Word) (n sz : Nat) (hfit : n * sz ≤ 2 ^ 32)
    (mem : Word → Byte) (user : U) :
    let s : Sorting U := ⟨mem, user, [], []⟩
    let s' := qsort cmp base n sz s
    Within base n sz mem s' ∧ Rearranged n (bytesOf base sz s) (bytesOf base sz s') ∧
      ∀ le, Preorders cmp base n sz s le → ∀ i, i + 1 < n → ∀ user',
        (cmp user' s'.mem (element base sz i) (element base sz (i + 1))).1 ≤ 0 := by
  intro s s'
  have harr : Arranges (sorter cmp base sz) n (bytesOf base sz) := sorter_arranges hfit
  have hkeep := sorter_keeps cmp base n sz mem
  have hs : Within base n sz mem s := ⟨fun _ _ => rfl, by simp [s], by simp [s]⟩
  have hwithin : Within base n sz mem s' := passes_invariant hkeep _ hs
  have hperm : Rearranged n (bytesOf base sz s) (bytesOf base sz s') :=
    passes_rearranged harr _ s
  refine ⟨hwithin, hperm, ?_⟩
  intro le hle i hi user'
  have hreach : Keeps (sorter cmp base sz) n (Reachable base n sz s) :=
    (sorter_outside cmp s.mem).and (harr.keeps (bytesOf base sz s))
  have hdec : Decides (sorter cmp base sz) n (bytesOf base sz) (Reachable base n sz s)
      {x | ∃ k < n, x = bytesOf base sz s k} le := by
    constructor
    · rintro t ⟨_, σ, hσ, ht⟩ k hk
      exact ⟨σ k, (hσ k).mpr hk, ht k hk⟩
    · intro t ht i j hij hj
      rw [← hle.decides t ht i (Nat.lt_trans hij hj) j hj]
      exact decide_eq_true_iff
  have hsorted := passes_sorted hreach harr hdec hle.preorder (s := s)
    ⟨fun _ _ => rfl, .refl _ _⟩
  exact (hle.decides ⟨s'.mem, user', [], []⟩ ⟨hwithin.outside, hperm⟩ i (by omega) (i + 1) hi).mpr
    (hsorted i (i + 1) (by omega) hi)

/-- A comparison of elements by their first byte. -/
def compareFirst : Compare Unit := fun u mem x y => ((mem x).toNat - (mem y).toNat, u)

theorem compareFirst_preorders (base : Word) (n : Nat) (s : Sorting Unit) :
    Preorders compareFirst base n 2 s fun x y => (x.headD 0#8).toNat ≤ (y.headD 0#8).toNat := by
  constructor
  · constructor
    · intro x _ y _
      exact Nat.le_total _ _
    · intro x _ y _ z _
      exact Nat.le_trans
  · intro s' _ i _ j _
    have hhead : ∀ k, (bytesOf base 2 s' k).headD 0#8 = s'.mem (element base 2 k) := by
      intro k
      simp [bytesOf, List.range_succ]
    simp only [hhead, compareFirst]
    omega

theorem qsort_sorts_three :
    let mem : Word → Byte := fun a => if a = 0#32 then 9#8 else if a = 2#32 then 7#8 else 1#8
    let s := qsort compareFirst 0#32 3 2 ⟨mem, (), [], []⟩
    ∀ i, i + 1 < 3 →
      (compareFirst () s.mem (element 0#32 2 i) (element 0#32 2 (i + 1))).1 ≤ 0 := by
  intro mem s i hi
  exact (qsort_sorts compareFirst 0#32 3 2 (by omega) mem ()).2.2 _
    (compareFirst_preorders 0#32 3 _) i hi ()

end Purv.Rt
