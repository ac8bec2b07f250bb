import Mathlib.Logic.Basic

/-!
# Computations that must not fail in one way

A computation may fail for several reasons, of which `e` is the one to rule out.

* `check` — go on only if a condition holds, and fail with `e` else;
* `check_inside`, `bind_inside` — exactly when a computation does not fail with `e`;
* `Safe` — a computation never fails with `e`, and what it returns is as asked;
* `Tracks` — unless it fails with `e`, a computation returns what one without checks does;
* `Settled` — unless it fails with `e`, a computation ends as another does.
-/

namespace Guarded

variable {E A B : Type} {e : E}

/-- Go on with `a`, if `c` holds. -/
def check (e : E) (c : Prop) [Decidable c] (a : A) : Except E A :=
  if c then .ok a else .error e

theorem check_ok {c : Prop} [Decidable c] {a b : A} (h : check e c a = .ok b) : c ∧ a = b := by
  unfold check at h
  split at h
  · cases h
    exact ⟨‹_›, rfl⟩
  · cases h

theorem bind_ok {g : Except E A} {f : A → Except E B} {b : B} (h : (g >>= f) = .ok b) :
    ∃ a, g = .ok a ∧ f a = .ok b := by
  cases g with
  | error e => cases h
  | ok a => exact ⟨a, rfl, h⟩

/-! ## When a computation fails with `e` -/

theorem check_inside {c : Prop} [Decidable c] {a : A} : check e c a ≠ .error e ↔ c := by
  unfold check
  split
  · exact iff_of_true (fun h => by cases h) ‹_›
  · exact iff_of_false (fun h => h rfl) ‹_›

/-- A check, and what comes after it. -/
theorem bind_inside {c : Prop} [Decidable c] {a : A} {f : A → Except E B} :
    (check e c a >>= f) ≠ .error e ↔ c ∧ f a ≠ .error e := by
  unfold check
  by_cases hc : c
  · rw [if_pos hc]
    exact (and_iff_right hc).symm
  · rw [if_neg hc]
    exact iff_of_false (fun h => h rfl) fun h => hc h.1

/-- One step, and what comes after it. -/
theorem bind_inside_iff {g : Except E A} {f : A → Except E B} :
    (g >>= f) ≠ .error e ↔ g ≠ .error e ∧ ∀ a, g = .ok a → f a ≠ .error e := by
  cases g with
  | error e' =>
    constructor
    · intro h
      exact ⟨fun he => h (by cases he; rfl), fun a ha => by cases ha⟩
    · intro h he
      exact h.1 (by cases he; rfl)
  | ok a =>
    constructor
    · intro h
      refine ⟨fun he => (by cases he), fun b hb => ?_⟩
      cases hb
      exact h
    · exact fun h => h.2 a rfl

/-- A step that is the last but for what is returned. -/
theorem map_inside {g : Except E A} {f : A → B} :
    (g >>= fun a => .ok (f a)) ≠ .error e ↔ g ≠ .error e :=
  bind_inside_iff.trans (and_iff_left fun a _ h => by cases h)

/-! ## Never failing with `e` -/

/-- `g` does not fail with `e`, and what it returns satisfies `Q`. -/
def Safe (e : E) (g : Except E A) (Q : A → Prop) : Prop :=
  g ≠ .error e ∧ ∀ a, g = .ok a → Q a

theorem Safe.ok {a : A} {Q : A → Prop} (h : Q a) : Safe e (.ok a) Q := by
  constructor
  · intro h
    cases h
  · intro b hb
    cases hb
    exact h

theorem Safe.other {e' : E} (h : e' ≠ e) (Q : A → Prop) : Safe e (.error e') Q := by
  constructor
  · intro he
    cases he
    exact h rfl
  · intro a ha
    cases ha

theorem Safe.check {c : Prop} [Decidable c] (hc : c) {a : A} {Q : A → Prop} (h : Q a) :
    Safe e (check e c a) Q := by
  unfold Guarded.check
  rw [if_pos hc]
  exact .ok h

/-- One after the other. -/
theorem Safe.bind {g : Except E A} {f : A → Except E B} {P : A → Prop} {Q : B → Prop}
    (hg : Safe e g P) (hf : ∀ a, P a → Safe e (f a) Q) : Safe e (g >>= f) Q := by
  cases g with
  | error e' => exact .other (fun h => hg.1 (congrArg _ h)) Q
  | ok a => exact hf a (hg.2 a rfl)

theorem Safe.imp {g : Except E A} {P Q : A → Prop} (hg : Safe e g P) (h : ∀ a, P a → Q a) :
    Safe e g Q :=
  ⟨hg.1, fun a ha => h a (hg.2 a ha)⟩

/-! ## What the checks leave -/

/-- Unless `g` fails with `e`, it is `o`, where `none` is any other failure. -/
def Tracks (e : E) (g : Except E A) (o : Option A) : Prop := g ≠ .error e → g.toOption = o

theorem Tracks.check {c : Prop} [Decidable c] (a : A) : Tracks e (check e c a) (some a) := by
  intro h
  unfold Guarded.check at h ⊢
  split at h
  · rw [if_pos ‹_›]
    rfl
  · exact absurd rfl h

theorem Tracks.ok (a : A) : Tracks e (.ok a) (some a) := fun _ => rfl

theorem Tracks.other (e' : E) : Tracks e (.error e' : Except E A) none := fun _ => rfl

theorem Tracks.bind {g : Except E A} {f : A → Except E B} {o : Option A} {f' : A → Option B}
    (hg : Tracks e g o) (hf : ∀ a, Tracks e (f a) (f' a)) : Tracks e (g >>= f) (o.bind f') := by
  intro h
  cases g with
  | error e' =>
    have ho := hg (fun he => h (by cases he; rfl))
    rw [← ho]
    rfl
  | ok a =>
    have ho := hg (fun he => by cases he)
    rw [← ho]
    exact hf a h

/-- After a step that does not come back. -/
theorem Tracks.fails {g : Except E A} (hg : Tracks e g none) (f : A → Except E B) :
    Tracks e (g >>= f) none := by
  intro h
  cases g with
  | error e' => rfl
  | ok a =>
    have ho := hg (fun he => by cases he)
    cases ho

/-- After a step that does. -/
theorem Tracks.then {g : Except E A} {f : A → Except E B} {a : A} {o : Option B}
    (hg : Tracks e g (some a)) (hf : Tracks e (f a) o) : Tracks e (g >>= f) o := by
  intro h
  cases g with
  | error e' =>
    have ho := hg (fun he => h (by cases he; rfl))
    cases ho
  | ok b =>
    have ho := hg (fun he => by cases he)
    cases ho
    exact hf h

/-- After a step that comes back, unless it fails with `e`. -/
theorem Tracks.bind_inside {g : Except E A} {f : A → Except E B} {a : A}
    (hg : Tracks e g (some a)) : (g >>= f) ≠ .error e ↔ g ≠ .error e ∧ f a ≠ .error e := by
  refine bind_inside_iff.trans (and_congr_right fun hin => ?_)
  have hok : g = .ok a := by
    have ho := hg hin
    cases g with
    | error e' => cases ho
    | ok b =>
      cases ho
      rfl
  constructor
  · exact fun h => h a hok
  · rintro h b hb
    cases hok.symm.trans hb
    exact h

/-- What comes back is what the computation without checks returns. -/
theorem Safe.tracks {g : Except E A} {Q : A → Prop} {o : Option A} (hg : Safe e g Q)
    (ht : Tracks e g o) : Safe e g fun a => Q a ∧ o = some a := by
  refine ⟨hg.1, fun a ha => ⟨hg.2 a ha, ?_⟩⟩
  have ho := ht hg.1
  rw [← ho, ha]
  rfl

/-! ## Ending alike -/

/-- Unless `g` fails with `e`, `g'` ends as `g` does. -/
def Settled (e : E) (g g' : Except E A) : Prop := g ≠ .error e → g = g'

theorem Settled.refl (g : Except E A) : Settled e g g := fun _ => rfl

theorem Settled.bind {g g' : Except E A} {f f' : A → Except E B} (hg : Settled e g g')
    (hf : ∀ a, Settled e (f a) (f' a)) : Settled e (g >>= f) (g' >>= f') := by
  intro h
  cases g with
  | error e' =>
    rw [← hg fun he => h (by cases he; rfl)]
    rfl
  | ok a =>
    rw [← hg fun he => by cases he]
    exact hf a h

/-- What `g` returns, `g'` returns. -/
theorem Settled.returns {g g' : Except E A} {a : A} (h : Settled e g g') (hg : g = .ok a) :
    g' = .ok a :=
  (h (by rw [hg]; exact fun he => by cases he)).symm.trans hg

/-- A failure of another kind stays. -/
theorem Settled.inside {e' : E} {g g' : Except E A} (h : Settled e g g') (hne : e' ≠ e)
    (hg : g' ≠ .error e') : g ≠ .error e' := by
  intro hfail
  refine hg ((h fun he => ?_).symm.trans hfail)
  rw [hfail] at he
  cases he
  exact hne rfl

end Guarded
