import Mathlib.Tactic.Basic

/-!
# Items laid end to end

A list of items with their positions, where each item starts at the end of the one before it.

* `Tiles size start l stop` — the items of `l` fill `[start, stop)`, in order;
* `Tiles.mem` — each of them lies inside;
* `Tiles.length_le` — there are no more of them than places;
* `Tiles.pairwise` — and no two of them overlap.
-/

namespace Tiling

variable {α : Type}

/-- The items fill the range from `start` to `stop`, in the order of the list. -/
def Tiles (size : α → Nat) : Nat → List (Nat × α) → Nat → Prop
  | start, [], stop => start = stop
  | start, (d, x) :: l, stop => d = start ∧ Tiles size (start + size x) l stop

variable {size : α → Nat} {start stop : Nat} {l : List (Nat × α)}

theorem Tiles.le (h : Tiles size start l stop) : start ≤ stop := by
  induction l generalizing start with
  | nil => exact Nat.le_of_eq h
  | cons p l ih => exact Nat.le_trans (Nat.le_add_right _ _) (ih h.2)

/-- An item lies inside the range. -/
theorem Tiles.mem (h : Tiles size start l stop) {d : Nat} {x : α} (hx : (d, x) ∈ l) :
    start ≤ d ∧ d + size x ≤ stop := by
  induction l generalizing start with
  | nil => cases hx
  | cons p l ih =>
    cases hx with
    | head =>
      obtain ⟨hd, hl⟩ := h
      exact ⟨Nat.le_of_eq hd.symm, hd ▸ hl.le⟩
    | tail _ hx =>
      obtain ⟨hle, hstop⟩ := ih h.2 hx
      exact ⟨Nat.le_trans (Nat.le_add_right _ _) hle, hstop⟩

/-- Items that take a place each are no more than the places. -/
theorem Tiles.length_le (h : Tiles size start l stop) (hpos : ∀ d x, (d, x) ∈ l → 0 < size x) :
    start + l.length ≤ stop := by
  induction l generalizing start with
  | nil => exact Nat.le_of_eq h
  | cons p l ih =>
    have hfirst := hpos p.1 p.2 (by simp)
    have hrest := ih h.2 fun d x hx => hpos d x (by simp [hx])
    simp only [List.length_cons]
    omega

/-- **No two items overlap**: each ends before the next one starts. -/
theorem Tiles.pairwise (h : Tiles size start l stop) :
    l.Pairwise fun p q => p.1 + size p.2 ≤ q.1 := by
  induction l generalizing start with
  | nil => exact List.Pairwise.nil
  | cons p l ih =>
    obtain ⟨hd, hl⟩ := h
    refine List.Pairwise.cons (fun q hq => ?_) (ih hl)
    rw [hd]
    exact (hl.mem (x := q.2) hq).1

end Tiling
