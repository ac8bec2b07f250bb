import Mathlib.Data.List.Basic

/-!
# Fallible folds

* `foldlM_run` — what each step of a fold keeps, over the elements that are done, holds at its end.
-/

namespace Folds

variable {α σ : Type} {f : σ → α → Option σ}

/-- **An invariant of a fold**: it may speak of the elements that are done. -/
theorem foldlM_run {l : List α} {s t : σ} (Inv : List α → σ → Prop)
    (hstep : ∀ done x, done ++ [x] <+: l → ∀ u v, Inv done u → f u x = some v →
      Inv (done ++ [x]) v) (hs : Inv [] s) (h : l.foldlM f s = some t) : Inv l t := by
  have hrest : ∀ rest done u, done ++ rest = l → Inv done u → rest.foldlM f u = some t →
      Inv l t := by
    intro rest
    induction rest with
    | nil =>
      intro done u hl hu hrun
      cases hrun
      rwa [← hl, List.append_nil]
    | cons x rest ih =>
      intro done u hl hu hrun
      rw [List.foldlM_cons] at hrun
      obtain ⟨v, hv, hrun⟩ := Option.bind_eq_some_iff.mp hrun
      have hsnoc : done ++ [x] ++ rest = l := by rw [List.append_assoc, List.singleton_append, hl]
      exact ih (done ++ [x]) v hsnoc (hstep done x ⟨rest, hsnoc⟩ u v hu hv) hrun
  exact hrest l [] s (List.nil_append l) hs h

/-- What a fold that returns knows of each element: it has passed the element's step. -/
theorem foldlM_mem {l : List α} {s t : σ} {P : α → Prop}
    (hstep : ∀ x u v, f u x = some v → P x) (h : l.foldlM f s = some t) : ∀ x ∈ l, P x := by
  refine foldlM_run (fun done _ => ∀ x ∈ done, P x) (fun done x _ u v hdone hx => ?_)
    (fun x hx => nomatch hx) h
  intro y hy
  rcases List.mem_append.mp hy with hy | hy
  · exact hdone y hy
  · rw [List.mem_singleton.mp hy]
    exact hstep x u v hx

end Folds
