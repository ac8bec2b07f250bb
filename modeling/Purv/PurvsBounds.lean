import Purv.Batch
import Purv.PurvsTrap

/-!
# The fetches of `purvs`

Loop 1 tests the pc against the window only past `win`, the last pc at which four bytes are in
bounds.  A window of less than four bytes has no such pc, and `win` is 0 all the same.

* `guardedAhead` — loop 1 with every read of a code byte tested against `code_len`;
* `guardedAhead_iff` — it loses no read exactly when every instruction decoded lies in the window;
* `traced_fetchable` — they all do, but for one at 0;
* `riscvEmulatorLoop_fetches` — over a run.
-/

namespace Purv.Purvs

open Bits Steps

variable {H : Type}

/-! ## Guarded decoding -/

/-- `mustStop` over guarded reads. -/
def guardedStop (code : Nat → Byte) (code_len win pc : Word) : Option Bool :=
  if pc > win then
    if pc ≥ code_len ∨ code_len - pc < 2#32 then some true
    else do
      let lo ← guardedHalf code code_len pc
      some (lo.extractLsb' 0 2 == 3#2 && code_len - pc < 4#32)
  else some false

/-- `decodeAhead` over guarded reads: `none` at the first one past the window. -/
def guardedAhead (code : Nat → Byte) (code_len win : Word) : Nat → Ahead → Option Ahead
  | 0, a => some a
  | left + 1, a =>
    match guardedStop code code_len win a.pc with
    | none => none
    | some true => some a
    | some false =>
      match guardedFetch code code_len a.pc with
      | none => none
      | some i =>
        match a.lower i with
        | (a, true) => some a
        | (a, false) => guardedAhead code code_len win left a

section
variable {code : Nat → Byte} {code_len win pc : Word}

/-- The checks read no byte past the window. -/
theorem guardedStop_eq : guardedStop code code_len win pc = some (mustStop code code_len win pc) := by
  unfold guardedStop mustStop
  by_cases hwin : pc > win
  · rw [if_pos hwin, decide_eq_true hwin, Bool.true_and]
    by_cases hout : pc ≥ code_len ∨ code_len - pc < 2#32
    · rw [if_pos hout]
      rcases hout with hout | hout
      · rw [decide_eq_true hout, Bool.true_or, Bool.true_or]
      · rw [decide_eq_true hout, Bool.or_true, Bool.true_or]
    · rw [if_neg hout]
      rw [not_or] at hout
      have hlt : pc.toNat < code_len.toNat := by
        have := hout.1
        rwa [ge_iff_le, BitVec.not_le, BitVec.lt_def] at this
      have h2 : 2 ≤ (code_len - pc).toNat := by
        have := hout.2
        rwa [BitVec.not_lt, BitVec.le_def] at this
      rw [BitVec.toNat_sub_of_le (BitVec.le_def.mpr (by omega))] at h2
      rw [guardedHalf_eq (by omega), decide_eq_false hout.1, decide_eq_false hout.2]
      rfl
  · rw [if_neg hwin, decide_eq_false hwin, Bool.false_and]

theorem codeAt_none {i : Word} (hi : ¬ i.toNat < code_len.toNat) :
    codeAt code code_len i = none := by
  rw [codeAt, if_neg (by rwa [BitVec.lt_def])]

theorem guardedHalf_none (hfit : ¬ pc.toNat + 2 ≤ code_len.toNat) :
    guardedHalf code code_len pc = none := by
  have hlen := code_len.isLt
  unfold guardedHalf
  by_cases hpc : pc.toNat < code_len.toNat
  · have h1 : (pc + 1#32).toNat = pc.toNat + 1 := BitVec.toNat_add_of_lt (by simp; omega)
    rw [codeAt_lt hpc, codeAt_none (by omega)]
    rfl
  · rw [codeAt_none hpc]
    rfl

/-- An instruction that does not lie whole in the window is not fetched without a read past it. -/
theorem guardedFetch_none (hf : ¬ Fetchable code false code_len pc) :
    guardedFetch code code_len pc = none := by
  have hlen := code_len.isLt
  unfold guardedFetch
  by_cases h2 : pc.toNat + 2 ≤ code_len.toNat
  · rw [guardedHalf_eq h2]
    simp only [Option.bind_eq_bind, Option.bind_some]
    by_cases hlo : (fetchHalf code pc).extractLsb' 0 2 = 3#2
    · have h4 : ¬ pc.toNat + 4 ≤ code_len.toNat := fun h4 => hf ⟨rfl, h2, fun _ => h4⟩
      have ho : (pc + 2#32).toNat = pc.toNat + 2 := BitVec.toNat_add_of_lt (by simp; omega)
      rw [if_pos hlo, guardedHalf_none (by omega)]
      rfl
    · exact absurd ⟨rfl, h2, fun h3 => absurd h3 hlo⟩ hf
  · rw [guardedHalf_none h2]
    rfl

/-- The checks are those of the interpreter, unless the pc is 0 in a window too short for `win`. -/
theorem mustStop_false (hne : pc ≠ 0#32 ∨ 4 ≤ code_len.toNat)
    (hgo : mustStop code code_len (winOf code_len) pc = false) : Fetchable code false code_len pc := by
  by_cases h4 : 4 ≤ code_len.toNat
  · exact (mustStop_eq_false h4).mp hgo
  have hpc : pc ≠ 0#32 := hne.resolve_right h4
  have hwin : winOf code_len = 0#32 := if_neg fun hle : code_len ≥ 4#32 =>
    h4 (BitVec.le_def.mp hle)
  have hpos : pc > winOf code_len := by
    rw [hwin, gt_iff_lt, BitVec.lt_def]
    exact Nat.pos_of_ne_zero fun h0 => hpc (BitVec.eq_of_toNat_eq h0)
  unfold mustStop at hgo
  rw [decide_eq_true hpos, Bool.true_and, Bool.or_eq_false_iff, Bool.or_eq_false_iff,
    decide_eq_false_iff_not, decide_eq_false_iff_not, Bool.and_eq_false_iff, beq_eq_false_iff_ne,
    decide_eq_false_iff_not, ge_iff_le, BitVec.not_le, BitVec.not_lt, BitVec.not_lt,
    BitVec.lt_def, BitVec.le_def, BitVec.le_def] at hgo
  obtain ⟨⟨hlt, h2⟩, h3⟩ := hgo
  rw [BitVec.toNat_sub_of_le (BitVec.le_def.mpr (by omega))] at h2 h3
  have h2' : 2 ≤ code_len.toNat - pc.toNat := h2
  refine ⟨rfl, by omega, fun hlow => ?_⟩
  have h4' : 4 ≤ code_len.toNat - pc.toNat := h3.resolve_left fun hne => hne hlow
  omega

end

/-! ## Loop 1 -/

section
variable {code : Nat → Byte} {code_len win : Word}

/-- Loop 1 loses no read exactly when every instruction it decodes lies whole in the window. -/
theorem guardedAhead_iff (left : Nat) (a : Ahead) :
    guardedAhead code code_len win left a = some (decodeAhead code code_len win left a) ↔
      ∀ pc ∈ tracedFrom code code_len win left a, Fetchable code false code_len pc := by
  induction left generalizing a with
  | zero => exact iff_of_true rfl fun _ h => absurd h List.not_mem_nil
  | succ left ih =>
    unfold guardedAhead decodeAhead tracedFrom
    rw [guardedStop_eq]
    cases mustStop code code_len win a.pc with
    | true => exact iff_of_true rfl fun _ h => absurd h List.not_mem_nil
    | false =>
      simp only [Bool.false_eq_true, if_false]
      by_cases hf : Fetchable code false code_len a.pc
      · rw [guardedFetch_eq hf]
        simp only
        rcases a.lower (fetch code a.pc) with ⟨a', stop⟩
        cases stop with
        | true =>
          refine iff_of_true rfl fun pc h => ?_
          rwa [List.mem_singleton.mp h]
        | false =>
          refine (ih a').trans ?_
          rw [List.forall_mem_cons]
          exact (and_iff_right hf).symm
      · rw [guardedFetch_none hf]
        refine iff_of_false (fun h => by cases h) fun hall => hf (hall _ ?_)
        rcases a.lower (fetch code a.pc) with ⟨a', stop⟩
        cases stop <;> exact List.mem_cons_self

/-- What loop 1 decodes lies in the window, but for an instruction at 0 in a short one. -/
theorem tracedFrom_fetchable {left : Nat} {a : Ahead} {pc : Word}
    (hpc : pc ∈ tracedFrom code code_len (winOf code_len) left a)
    (hne : pc ≠ 0#32 ∨ 4 ≤ code_len.toNat) : Fetchable code false code_len pc := by
  induction left generalizing a with
  | zero => exact absurd hpc List.not_mem_nil
  | succ left ih =>
    unfold tracedFrom at hpc
    split at hpc
    · exact absurd hpc List.not_mem_nil
    · rename_i hgo
      have hhere : pc = a.pc → Fetchable code false code_len pc := by
        rintro rfl
        exact mustStop_false hne (Bool.eq_false_iff.mpr hgo)
      split at hpc
      · exact hhere (List.mem_singleton.mp hpc)
      · rcases List.mem_cons.mp hpc with heq | hin
        · exact hhere heq
        · exact ih hin

end

/-! ## Runs -/

section
variable (code : Buf) (code_len : Word) (lim : Nat) (block : Block) (r : Run H)

/-- Loop 1 of the round from `r` reads no code byte at or past `code_len`, and decodes no instruction
that does not end in the window. -/
def InWindow : Prop :=
  (guardedAhead (r.s.mem code) code_len (winOf code_len) lim ⟨block, 0, 0, r.s.pc, 0, 0⟩).isSome ∧
    ∀ pc ∈ traced code code_len (winOf code_len) lim block r,
      Fetchable (r.s.mem code) false code_len pc

/-- The round decodes at 0 only an instruction that ends in the window. -/
def ZeroFits : Prop :=
  0#32 ∈ traced code code_len (winOf code_len) lim block r →
    Fetchable (r.s.mem code) false code_len 0#32

end

theorem inWindow_iff {code : Buf} (hcode : code ≠ 0) {code_len : Word} {lim : Nat} {block : Block}
    {r : Run H} : InWindow code code_len lim block r ↔ ZeroFits code code_len lim block r := by
  unfold InWindow ZeroFits traced
  rw [if_neg hcode]
  constructor
  · rintro ⟨-, hall⟩ hzero
    exact hall _ hzero
  · intro hzero
    have hall : ∀ pc ∈ tracedFrom (r.s.mem code) code_len (winOf code_len) lim
        ⟨block, 0, 0, r.s.pc, 0, 0⟩, Fetchable (r.s.mem code) false code_len pc := by
      intro pc hpc
      by_cases h0 : pc = 0#32
      · rw [h0] at hpc ⊢
        exact hzero hpc
      · exact tracedFrom_fetchable hpc (.inl h0)
    refine ⟨?_, hall⟩
    rw [(guardedAhead_iff _ _).mpr hall]
    rfl

/-- **`purvs` fetches inside the code window exactly when no round decodes an instruction at 0 that
does not end in it**; so always, when the window has four bytes. -/
theorem riscvEmulatorLoop_fetches (h : Hooks H) (eval : EvalFn H) (block : Block) (r : Run H)
    (max : Nat) (hcode : r.s.readonly.ptr ≠ 0) :
    ((∀ x, Entered h eval block r max x →
        InWindow r.s.readonly.ptr r.s.readonly.len (x.lim max) x.block x.r) ↔
      ∀ x, Entered h eval block r max x →
        ZeroFits r.s.readonly.ptr r.s.readonly.len (x.lim max) x.block x.r) ∧
    (4#32 ≤ r.s.readonly.len → ∀ x, Entered h eval block r max x →
      InWindow r.s.readonly.ptr r.s.readonly.len (x.lim max) x.block x.r) := by
  refine ⟨forall_congr' fun _ => imp_congr_right fun _ => inWindow_iff hcode, ?_⟩
  intro h4 x _
  have h4' : 4 ≤ r.s.readonly.len.toNat := BitVec.le_def.mp h4
  exact (inWindow_iff hcode).mpr fun _ => ⟨rfl, by simp; omega, fun _ => by simp; omega⟩

/-- A window of two bytes, the first half of a 32-bit `NOP`. -/
def halfNop : Run Unit := ⟨State.boot [0x13, 0x00] 0, []⟩

theorem riscvEmulatorLoop_fetches_nop :
    ((∀ x, Entered Hooks.null defaultEval (fun _ => ⟨0#8, 0#8, 0#8, 0#8⟩) halfNop 1 x →
        InWindow 1 2#32 (x.lim 1) x.block x.r) ↔
      ∀ x, Entered Hooks.null defaultEval (fun _ => ⟨0#8, 0#8, 0#8, 0#8⟩) halfNop 1 x →
        ZeroFits 1 2#32 (x.lim 1) x.block x.r) ∧
    (4#32 ≤ 2#32 → ∀ x, Entered Hooks.null defaultEval (fun _ => ⟨0#8, 0#8, 0#8, 0#8⟩) halfNop 1 x →
      InWindow 1 2#32 (x.lim 1) x.block x.r) :=
  riscvEmulatorLoop_fetches Hooks.null defaultEval _ halfNop 1 (by decide)

/-- `purvs` decodes and runs the `NOP` that the window cuts off, where the interpreter stops. -/
theorem riscvEmulatorLoop_fetch_past :
    ¬ (∀ x, Entered Hooks.null defaultEval (fun _ => ⟨0#8, 0#8, 0#8, 0#8⟩) halfNop 1 x →
        InWindow 1 2#32 (x.lim 1) x.block x.r) ∧
    (riscvEmulatorLoop Hooks.null defaultEval (fun _ => ⟨0#8, 0#8, 0#8, 0#8⟩) halfNop 1).k = 1 ∧
    (Purv.riscvEmulatorLoop Hooks.null halfNop 1).k = 0 := by
  refine ⟨fun hall => ?_, by decide, by decide⟩
  have hstart := (hall ⟨_, halfNop, 0⟩ ⟨by decide, 0, rfl⟩).1
  exact absurd hstart (by decide)

end Purv.Purvs
