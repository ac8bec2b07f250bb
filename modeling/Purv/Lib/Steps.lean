import Mathlib.Tactic.Basic
import Mathlib.Tactic.ByContra

/-!
# Runs of a partial step function

`f : σ → Option σ` takes one step, or says that there is none.

* `iter f n x` — the state after `n` steps from `x`;
* `Every f P n x` — `P` holds of the states that the first `n` steps start from;
* `iter_add`, `every_add` — runs compose;
* `iter_invariant` — what one step preserves holds after any run;
* `Always f P x`, `Ends f x y` — `P` holds of every state reached, and the run ends at `y`;
* `ends_or_idles` — a run with a bounded measure ends, or comes to steps that leave it as it is;
* `iter_rel`, `always_rel`, `ends_rel` — two step functions in lockstep.
-/

namespace Steps

variable {σ : Type} (f : σ → Option σ)

/-- `n` steps from `x`. -/
def iter : Nat → σ → Option σ
  | 0, x => some x
  | n + 1, x =>
    match f x with
    | none => none
    | some y => iter n y

/-- `P` holds of every state that one of the first `n` steps starts from. -/
def Every (P : σ → Prop) : Nat → σ → Prop
  | 0, _ => True
  | n + 1, x => P x ∧ ∀ y, f x = some y → Every P n y

variable {f}

theorem iter_succ {n : Nat} {x y : σ} (h : f x = some y) : iter f (n + 1) x = iter f n y := by
  simp only [iter, h]

theorem iter_one {x y : σ} (h : f x = some y) : iter f 1 x = some y := iter_succ h

/-- **Runs compose.** -/
theorem iter_add {m n : Nat} {x y z : σ} (hm : iter f m x = some y) (hn : iter f n y = some z) :
    iter f (m + n) x = some z := by
  induction m generalizing x with
  | zero =>
    cases hm
    rwa [Nat.zero_add]
  | succ m ih =>
    rw [Nat.succ_add]
    cases hx : f x with
    | none =>
      rw [iter, hx] at hm
      cases hm
    | some x' =>
      rw [iter_succ hx] at hm ⊢
      exact ih hm

/-- A run can be cut anywhere. -/
theorem iter_split {m n : Nat} {x z : σ} (h : iter f (m + n) x = some z) :
    ∃ y, iter f m x = some y ∧ iter f n y = some z := by
  induction m generalizing x with
  | zero => exact ⟨x, rfl, by rwa [Nat.zero_add] at h⟩
  | succ m ih =>
    rw [Nat.succ_add] at h
    cases hx : f x with
    | none =>
      rw [iter, hx] at h
      cases h
    | some x' =>
      rw [iter_succ hx] at h ⊢
      exact ih h

/-- The last step of a run. -/
theorem iter_last {n : Nat} {x z : σ} (h : iter f (n + 1) x = some z) :
    ∃ y, iter f n x = some y ∧ f y = some z := by
  obtain ⟨y, hy, hstep⟩ := iter_split h
  refine ⟨y, hy, ?_⟩
  cases hx : f y with
  | none =>
    rw [iter, hx] at hstep
    cases hstep
  | some y' =>
    rw [iter_succ hx] at hstep
    exact hstep

/-- A property of the steps of a run is one of its two parts. -/
theorem every_add {P : σ → Prop} {m n : Nat} {x y : σ} (h : Every f P (m + n) x)
    (hm : iter f m x = some y) : Every f P n y := by
  induction m generalizing x with
  | zero =>
    cases hm
    rwa [Nat.zero_add] at h
  | succ m ih =>
    rw [Nat.succ_add] at h
    cases hx : f x with
    | none =>
      rw [iter, hx] at hm
      cases hm
    | some x' =>
      rw [iter_succ hx] at hm
      exact ih (h.2 x' hx) hm

theorem every_mono {P Q : σ → Prop} (hPQ : ∀ x, P x → Q x) {n : Nat} {x : σ}
    (h : Every f P n x) : Every f Q n x := by
  induction n generalizing x with
  | zero => trivial
  | succ n ih => exact ⟨hPQ x h.1, fun y hy => ih (h.2 y hy)⟩

/-- **What one step preserves holds after any run.** -/
theorem iter_invariant (Inv : σ → Prop) (hstep : ∀ x y, Inv x → f x = some y → Inv y) {n : Nat}
    {x y : σ} (hx : Inv x) (h : iter f n x = some y) : Inv y := by
  induction n generalizing x with
  | zero =>
    cases h
    exact hx
  | succ n ih =>
    cases hf : f x with
    | none =>
      rw [iter, hf] at h
      cases h
    | some x' =>
      rw [iter_succ hf] at h
      exact ih (hstep x x' hx hf) h

/-! ## Whole runs -/

variable (f) in
/-- `P` holds of every state that a run from `x` reaches. -/
def Always (P : σ → Prop) (x : σ) : Prop := ∀ n y, iter f n x = some y → P y

variable (f) in
/-- A run from `x` reaches `y`, from where there is no step. -/
def Ends (x y : σ) : Prop := ∃ n, iter f n x = some y ∧ f y = none

theorem always_iter {P : σ → Prop} {n : Nat} {x y : σ} (h : Always f P x)
    (hn : iter f n x = some y) : Always f P y :=
  fun m z hm => h (n + m) z (iter_add hn hm)

/-- What a step preserves where `Q` holds always holds, if `Q` always does. -/
theorem always_preserved {P Q : σ → Prop} (hstep : ∀ x y, P x → Q x → f x = some y → P y) {x : σ}
    (hx : P x) (hQ : Always f Q x) : Always f P x := by
  intro n
  induction n with
  | zero =>
    intro y hy
    cases hy
    exact hx
  | succ n ih =>
    intro z hz
    obtain ⟨y, hy, hyz⟩ := iter_last hz
    exact hstep y z (ih y hy) (hQ n y hy) hyz

theorem always_and {P Q : σ → Prop} {x : σ} (hP : Always f P x) (hQ : Always f Q x) :
    Always f (fun y => P y ∧ Q y) x := fun n y hy => ⟨hP n y hy, hQ n y hy⟩

theorem ends_iter {n : Nat} {x y z : σ} (hn : iter f n x = some y) (h : Ends f y z) :
    Ends f x z := by
  obtain ⟨m, hm, hz⟩ := h
  exact ⟨n + m, iter_add hn hm, hz⟩

/-- There is no run from where there is no step. -/
theorem iter_stuck {n : Nat} {x y : σ} (hx : f x = none) (h : iter f n x = some y) : x = y := by
  cases n with
  | zero =>
    cases h
    rfl
  | succ n =>
    rw [iter, hx] at h
    cases h

/-- **A run ends in one way.** -/
theorem ends_unique {x y z : σ} (hy : Ends f x y) (hz : Ends f x z) : y = z := by
  obtain ⟨m, hm, hy⟩ := hy
  obtain ⟨n, hn, hz⟩ := hz
  rcases Nat.le_total m n with hle | hle
  · obtain ⟨d, rfl⟩ := Nat.exists_eq_add_of_le hle
    obtain ⟨y', hy', hd⟩ := iter_split hn
    cases hm.symm.trans hy'
    exact iter_stuck hy hd
  · obtain ⟨d, rfl⟩ := Nat.exists_eq_add_of_le hle
    obtain ⟨z', hz', hd⟩ := iter_split hm
    cases hn.symm.trans hz'
    exact (iter_stuck hz hd).symm

/-- A run that does not end can be followed for any number of steps. -/
theorem iter_of_not_ends {x : σ} (h : ¬ ∃ y, Ends f x y) (n : Nat) : ∃ y, iter f n x = some y := by
  induction n with
  | zero => exact ⟨x, rfl⟩
  | succ n ih =>
    obtain ⟨y, hy⟩ := ih
    cases hf : f y with
    | none => exact absurd ⟨y, n, hy, hf⟩ h
    | some z => exact ⟨z, iter_add hy (iter_one hf)⟩

/-- **A run whose measure is bounded ends, or idles for ever**: `Idle` are the states whose step may
leave the measure as it is. -/
theorem ends_or_idles {Idle : σ → Prop} (μ : σ → Nat) {B : Nat}
    (hle : ∀ x y, f x = some y → μ x ≤ μ y) (hlt : ∀ x y, f x = some y → ¬ Idle x → μ x < μ y)
    (hB : ∀ x y, f x = some y → μ x < B) {x : σ} (h : ¬ ∃ y, Ends f x y) :
    ∃ m, ∀ n, m ≤ n → ∃ y, iter f n x = some y ∧ Idle y := by
  by_contra hno
  -- some later step grows the measure, again and again
  have hgrow : ∀ b, ∃ n y, iter f n x = some y ∧ b ≤ μ y := by
    intro b
    induction b with
    | zero => exact ⟨0, x, rfl, Nat.zero_le _⟩
    | succ b ih =>
      obtain ⟨m, y, hy, hb⟩ := ih
      have hbusy : ∃ n, m ≤ n ∧ ¬ ∃ z, iter f n x = some z ∧ Idle z := by
        by_contra hall
        refine hno ⟨m, fun n hn => ?_⟩
        by_contra hidle
        exact hall ⟨n, hn, hidle⟩
      obtain ⟨n, hmn, hidle⟩ := hbusy
      obtain ⟨z, hz⟩ := iter_of_not_ends h n
      obtain ⟨z', hz'⟩ := iter_of_not_ends h (n + 1)
      obtain ⟨z₁, hz₁, hstep⟩ := iter_split hz'
      cases hz.symm.trans hz₁
      have hf : f z = some z' := by
        cases hfz : f z with
        | none =>
          rw [iter, hfz] at hstep
          cases hstep
        | some w =>
          rw [iter_succ hfz] at hstep
          exact hstep
      obtain ⟨d, rfl⟩ := Nat.exists_eq_add_of_le hmn
      obtain ⟨y', hy', hd⟩ := iter_split hz
      cases hy.symm.trans hy'
      have hmono : b ≤ μ z := iter_invariant (fun w => b ≤ μ w)
        (fun u v hu huv => Nat.le_trans hu (hle u v huv)) hb hd
      have hmore := hlt z z' hf fun hi => hidle ⟨z, hz, hi⟩
      exact ⟨m + d + 1, z', hz', by omega⟩
  obtain ⟨n, y, hy, hb⟩ := hgrow B
  obtain ⟨z, hz⟩ : ∃ z, f y = some z := by
    cases hf : f y with
    | none => exact absurd ⟨y, n, hy, hf⟩ h
    | some z => exact ⟨z, rfl⟩
  have := hB y z hz
  omega

/-- A run that ends idles for a while only. -/
theorem not_idles_of_ends {Idle : σ → Prop} {x y : σ} (h : Ends f x y) :
    ¬ ∃ m, ∀ n, m ≤ n → ∃ z, iter f n x = some z ∧ Idle z := by
  rintro ⟨m, hall⟩
  obtain ⟨n, hn, hy⟩ := h
  obtain ⟨z, hz, -⟩ := hall (m + n + 1) (by omega)
  have hz' : iter f (n + (m + 1)) x = some z := by rwa [show n + (m + 1) = m + n + 1 by omega]
  obtain ⟨y', hy', hd⟩ := iter_split hz'
  cases hn.symm.trans hy'
  rw [iter, hy] at hd
  cases hd

/-! ## Lockstep -/

section
variable {τ : Type} {g : τ → Option τ} {R : σ → τ → Prop}
  (hR : ∀ x y, R x y → Option.Rel R (f x) (g y))
include hR

/-- **Lockstep carries over to runs.** -/
theorem iter_rel (n : Nat) {x : σ} {y : τ} (h : R x y) :
    Option.Rel R (iter f n x) (iter g n y) := by
  induction n generalizing x y with
  | zero => exact .some h
  | succ n ih =>
    have hstep := hR x y h
    rw [iter, iter]
    cases hx : f x with
    | none =>
      rw [hx] at hstep
      cases hy : g y with
      | none => exact .none
      | some y' =>
        rw [hy] at hstep
        cases hstep
    | some x' =>
      rw [hx] at hstep
      cases hy : g y with
      | none =>
        rw [hy] at hstep
        cases hstep
      | some y' =>
        rw [hy] at hstep
        cases hstep with
        | some hstep => exact ih hstep

/-- What always holds on one side holds on the other. -/
theorem always_rel {P : σ → Prop} {Q : τ → Prop} (hPQ : ∀ x y, R x y → Q y → P x) {x : σ} {y : τ}
    (h : R x y) (hy : Always g Q y) : Always f P x := by
  intro n x' hx'
  have hrel := iter_rel hR n h
  rw [hx'] at hrel
  cases hy' : iter g n y with
  | none =>
    rw [hy'] at hrel
    cases hrel
  | some y' =>
    rw [hy'] at hrel
    cases hrel with
    | some hrel => exact hPQ x' y' hrel (hy n y' hy')

theorem ends_rel {x x' : σ} {y : τ} (h : R x y) (hx : Ends f x x') :
    ∃ y', Ends g y y' ∧ R x' y' := by
  obtain ⟨n, hn, hend⟩ := hx
  have hrel := iter_rel hR n h
  rw [hn] at hrel
  cases hy : iter g n y with
  | none =>
    rw [hy] at hrel
    cases hrel
  | some y' =>
    rw [hy] at hrel
    cases hrel with
    | some hrel =>
      have hstep := hR x' y' hrel
      rw [hend] at hstep
      cases hg : g y' with
      | none => exact ⟨y', ⟨n, hy, hg⟩, hrel⟩
      | some z =>
        rw [hg] at hstep
        cases hstep

end

end Steps
