import Mathlib.Algebra.Group.Nat.Even
import Mathlib.Logic.Function.Basic

/-!
# Strings with an end mark

A memory is a function of an address of `w` bits, and addresses wrap.

* `Text nul m a cs` — the memory has the string `cs` from `a` on, and then the end mark;
* `OneOf d n a` — `a` is one of the `n` addresses from `d` on;
* `write m d bs` — the memory after `bs` is written from `d` on;
* `clear_of_le` — addresses that lie below others are apart from them;
* `write_text`, `write_frame` — a string that is written stands there, and nothing else changes;
* `Text.agree`, `Text.join`, `Text.drop` — what is not touched stays, and strings join.
-/

namespace Texts

open Function

variable {w : Nat} {β : Type} {nul : β} {m m' : BitVec w → β} {a d s : BitVec w} {cs ds : List β}

/-- The string `cs` from `a` on, and the end mark after it. -/
def Text (nul : β) (m : BitVec w → β) (a : BitVec w) : List β → Prop
  | [] => m a = nul
  | c :: cs => m a = c ∧ c ≠ nul ∧ Text nul m (a + 1#w) cs

/-- `a` is one of the `n` addresses from `d` on. -/
def OneOf (d : BitVec w) (n : Nat) (a : BitVec w) : Prop := ∃ i < n, a = d + BitVec.ofNat w i

/-- No address is one of the `n` from `d` on and one of the `k` from `s` on. -/
def Clear (d : BitVec w) (n : Nat) (s : BitVec w) (k : Nat) : Prop :=
  ∀ a, OneOf d n a → ¬ OneOf s k a

/-- The memory after the list is written from `d` on. -/
def write (m : BitVec w → β) (d : BitVec w) : List β → BitVec w → β
  | [] => m
  | b :: bs => write (update m d b) (d + 1#w) bs

/-! ## Addresses -/

theorem offset_succ (a : BitVec w) (n : Nat) :
    a + BitVec.ofNat w (n + 1) = a + 1#w + BitVec.ofNat w n := by
  rw [Nat.add_comm, BitVec.ofNat_add, BitVec.add_assoc]

theorem oneOf_succ {n : Nat} : OneOf d (n + 1) a ↔ a = d ∨ OneOf (d + 1#w) n a := by
  constructor
  · rintro ⟨i, hi, rfl⟩
    cases i with
    | zero => exact .inl (by simp)
    | succ i => exact .inr ⟨i, Nat.lt_of_succ_lt_succ hi, offset_succ d i⟩
  · rintro (rfl | ⟨i, hi, rfl⟩)
    · exact ⟨0, Nat.succ_pos n, by simp⟩
    · exact ⟨i + 1, Nat.succ_lt_succ hi, (offset_succ d i).symm⟩

theorem oneOf_head (d : BitVec w) (n : Nat) : OneOf d (n + 1) d := oneOf_succ.mpr (.inl rfl)

theorem OneOf.tail {n : Nat} (h : OneOf (d + 1#w) n a) : OneOf d (n + 1) a :=
  oneOf_succ.mpr (.inr h)

theorem OneOf.mono {n k : Nat} (h : OneOf d n a) (hk : n ≤ k) : OneOf d k a := by
  obtain ⟨i, hi, rfl⟩ := h
  exact ⟨i, Nat.lt_of_lt_of_le hi hk, rfl⟩

/-- Addresses from some way on. -/
theorem OneOf.offset {n k : Nat} (h : OneOf (d + BitVec.ofNat w k) n a) : OneOf d (k + n) a := by
  obtain ⟨i, hi, rfl⟩ := h
  exact ⟨k + i, Nat.add_lt_add_left hi k, by rw [BitVec.ofNat_add, BitVec.add_assoc]⟩

/-- Addresses that follow on others do not come back to these before they wrap. -/
theorem oneOf_not {n k : Nat} (hn : n + k ≤ 2 ^ w) (h : OneOf d n a) :
    ¬ OneOf (d + BitVec.ofNat w n) k a := by
  rintro ⟨j, hj, hback⟩
  obtain ⟨i, hi, rfl⟩ := h
  rw [BitVec.add_assoc, ← BitVec.ofNat_add] at hback
  have hnat := congrArg BitVec.toNat ((BitVec.add_right_inj d).mp hback)
  rw [BitVec.toNat_ofNat, BitVec.toNat_ofNat, Nat.mod_eq_of_lt (by omega),
    Nat.mod_eq_of_lt (by omega)] at hnat
  omega

theorem OneOf.bounds {n : Nat} (h : OneOf d n a) (hn : d.toNat + n ≤ 2 ^ w) :
    d.toNat ≤ a.toNat ∧ a.toNat < d.toNat + n := by
  obtain ⟨i, hi, rfl⟩ := h
  have hsum : (d + BitVec.ofNat w i).toNat = d.toNat + i := by
    rw [BitVec.toNat_add, BitVec.toNat_ofNat, Nat.mod_eq_of_lt (show i < 2 ^ w by omega),
      Nat.mod_eq_of_lt (by omega)]
  omega

/-- Addresses below others, none of which wrap. -/
theorem clear_of_le {n k : Nat} (h : d.toNat + n ≤ s.toNat) (hk : s.toNat + k ≤ 2 ^ w) :
    Clear d n s k := by
  intro x hx hs
  obtain ⟨-, hlt⟩ := hx.bounds (by have := s.isLt; omega)
  obtain ⟨hle, -⟩ := hs.bounds hk
  omega

/-- The two lists of addresses, one step on. -/
theorem Clear.tail {n k : Nat} (h : Clear d (n + 1) s (k + 1)) : Clear (d + 1#w) n (s + 1#w) k :=
  fun x hx hs => h x hx.tail hs.tail

theorem Clear.head {n k : Nat} (h : Clear d (n + 1) s k) : ¬ OneOf s k d :=
  h d (oneOf_head d n)

/-! ## Strings -/

/-- A string that is not touched stays. -/
theorem Text.agree (h : Text nul m a cs) (hm : ∀ x, OneOf a (cs.length + 1) x → m' x = m x) :
    Text nul m' a cs := by
  induction cs generalizing a with
  | nil => exact (hm a (oneOf_head a 0)).trans h
  | cons c cs ih =>
    obtain ⟨hc, hne, hrest⟩ := h
    exact ⟨(hm a (oneOf_head a _)).trans hc, hne, ih hrest fun x hx => hm x hx.tail⟩

theorem Text.update (h : Text nul m a cs) (hd : ¬ OneOf a (cs.length + 1) d) (b : β) :
    Text nul (update m d b) a cs := by
  refine h.agree fun x hx => update_of_ne ?_ b m
  rintro rfl
  exact hd hx

theorem Text.not_mem (h : Text nul m a cs) : nul ∉ cs := by
  induction cs generalizing a with
  | nil => exact List.not_mem_nil
  | cons c cs ih =>
    obtain ⟨-, hne, hrest⟩ := h
    intro hmem
    rcases List.mem_cons.mp hmem with rfl | hmem
    · exact hne rfl
    · exact ih hrest hmem

/-- The string from some way on. -/
theorem Text.drop (h : Text nul m a (ds ++ cs)) : Text nul m (a + BitVec.ofNat w ds.length) cs := by
  induction ds generalizing a with
  | nil => simpa using h
  | cons c ds ih =>
    rw [List.length_cons, offset_succ]
    exact ih h.2.2

/-- A string goes on where another is written over its end mark. -/
theorem Text.join (h : Text nul m a ds) (hm : ∀ x, OneOf a ds.length x → m' x = m x)
    (hcs : Text nul m' (a + BitVec.ofNat w ds.length) cs) : Text nul m' a (ds ++ cs) := by
  induction ds generalizing a with
  | nil => simpa using hcs
  | cons c ds ih =>
    obtain ⟨hc, hne, hrest⟩ := h
    rw [List.length_cons, offset_succ] at hcs
    exact ⟨(hm a (oneOf_head a _)).trans hc, hne, ih hrest (fun x hx => hm x hx.tail) hcs⟩

/-! ## Writing -/

theorem write_frame {bs : List β} (h : ¬ OneOf d bs.length a) : write m d bs a = m a := by
  induction bs generalizing m d with
  | nil => rfl
  | cons b bs ih =>
    rw [List.length_cons, oneOf_succ, not_or] at h
    exact (ih h.2).trans (update_of_ne h.1 b m)

/-- A string that is written with an end mark stands there, whatever is written after it. -/
theorem write_text {bs : List β} (hcs : nul ∉ cs) (hlen : cs.length + bs.length < 2 ^ w) :
    Text nul (write m d (cs ++ nul :: bs)) d cs := by
  induction cs generalizing m d with
  | nil =>
    have hout : ¬ OneOf (d + 1#w) bs.length d := by
      rw [List.length_nil] at hlen
      exact oneOf_not (by omega) (oneOf_head d 0)
    exact (write_frame hout).trans (update_self d nul m)
  | cons c cs ih =>
    rw [List.length_cons] at hlen
    rw [List.mem_cons, not_or] at hcs
    refine ⟨?_, fun h => hcs.1 h.symm, ih hcs.2 (by omega)⟩
    have hout : ¬ OneOf (d + 1#w) (cs ++ nul :: bs).length d := by
      rw [List.length_append, List.length_cons]
      exact oneOf_not (by omega) (oneOf_head d 0)
    exact (write_frame hout).trans (update_self d c m)

end Texts
