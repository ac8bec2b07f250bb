import Mathlib.Tactic.Basic

/-!
# Writing lists into an array

An array is a function of its index.

* `overlay f o l` — the array `f` after `l` is written from index `o` on;
* `Holds f o l` — the array has `l` there;
* `Agree f g P` — two arrays differ at the indices of `P` only;
* `holds_overlay`, `agree_overlay` — a write puts its list there, and touches nothing else;
* `Holds.agree` — what is held stays through writes elsewhere.
-/

namespace Overlays

variable {α : Type}

/-- The array after `l` is written from index `o` on. -/
def overlay [Inhabited α] (f : Nat → α) (o : Nat) (l : List α) : Nat → α :=
  fun i => if o ≤ i ∧ i < o + l.length then l.getD (i - o) default else f i

/-- The array has `l` from index `o` on. -/
def Holds [Inhabited α] (f : Nat → α) (o : Nat) (l : List α) : Prop :=
  ∀ k, k < l.length → f (o + k) = l.getD k default

/-- The arrays differ at indices in `[lo, hi)` only. -/
def Agree (f g : Nat → α) (lo hi : Nat) : Prop := ∀ i, i < lo ∨ hi ≤ i → g i = f i

variable {f g h : Nat → α} {o lo hi : Nat} {l : List α}

theorem holds_overlay [Inhabited α] (f : Nat → α) (o : Nat) (l : List α) :
    Holds (overlay f o l) o l := by
  intro k hk
  unfold overlay
  rw [if_pos ⟨Nat.le_add_right _ _, Nat.add_lt_add_left hk o⟩, Nat.add_sub_cancel_left]

theorem agree_overlay [Inhabited α] (f : Nat → α) (o : Nat) (l : List α) :
    Agree f (overlay f o l) o (o + l.length) := by
  intro i hi
  unfold overlay
  exact if_neg (by omega)

theorem Agree.refl (f : Nat → α) (lo hi : Nat) : Agree f f lo hi := fun _ _ => rfl

theorem Agree.trans (hfg : Agree f g lo hi) (hgh : Agree g h lo hi) : Agree f h lo hi :=
  fun i hi => (hgh i hi).trans (hfg i hi)

theorem Agree.mono (hfg : Agree f g lo hi) {lo' hi' : Nat} (hlo : lo' ≤ lo) (hhi : hi ≤ hi') :
    Agree f g lo' hi' := fun i hi => hfg i (by omega)

/-- What is held stays through writes elsewhere. -/
theorem Holds.agree [Inhabited α] (hl : Holds f o l) (hfg : Agree f g lo hi)
    (hout : o + l.length ≤ lo ∨ hi ≤ o) : Holds g o l := by
  intro k hk
  rw [hfg (o + k) (by omega), hl k hk]

end Overlays
