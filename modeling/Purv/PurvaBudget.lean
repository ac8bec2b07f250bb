import Purv.PurvaFrame
import Purv.PurvaSlices

/-!
# The budget of an engine call

`NEXT` does not look at the budget, so a call may run past it.

* `dispatch_fall`, `dispatch_charge` — how far an op falls, and what it counts at most;
* `Forward` — one op of a straight line;
* `Returns` — a call that ends, and that goes straight on once its budget is used up;
* `loopFrom_returns`, `riscvEmulatorLoop_returns` — every call does.
-/

namespace Purv.Purva

open Bits Transcode Steps

variable {H : Type}

/-! ## What one op counts -/

theorem avail_lt {s : State H} {a : Word} : avail (pmoSpan s a) < 2 ^ 32 := by
  unfold pmoSpan pmoWspan avail
  simp only
  split
  · decide
  · rename_i heq
    split at heq
    · rename_i hspan
      split at hspan
      · cases hspan
        cases heq
        exact BitVec.isLt _
      · cases hspan
    · split at heq
      · cases heq
        exact BitVec.isLt _
      · cases heq

/-- An index that is found is below the bound. -/
theorem firstIndex_lt {p : Nat → Bool} {n i : Nat} (h : firstIndex p n = some i) : i < n := by
  unfold firstIndex at h
  exact List.mem_range.mp (List.mem_of_find?_eq_some h)

/-- The bulk memory instruction reports less than the address space. -/
theorem purvMemop_fuel (h : Hooks H) (r : Run H) (f3 : Nat) (rd rs1 rs2 : Reg) :
    (purvMemop h r f3 rd rs1 rs2).2 < 2 ^ 32 := by
  have hx := @avail_lt H r.s (r.s.x rd)
  have hN := (r.s.x rs2).isLt
  unfold purvMemop
  simp only
  split
  · exact BitVec.isLt _
  · exact BitVec.isLt _
  · split
    · rename_i hi
      have := firstIndex_lt hi
      simp only
      omega
    · simp only
      omega
  · split
    · rename_i hi
      have := firstIndex_lt hi
      simp only
      omega
    · simp only
      omega
  · exact BitVec.isLt _
  · split
    · rename_i hi
      have := firstIndex_lt hi
      simp only
      omega
    · exact hx
  · split
    · rename_i hi
      have := firstIndex_lt hi
      simp only
      omega
    · simp only
      omega

section
variable (h : Hooks H) (r : Run H) (p w w2 : Word)

/-- An op falls to the next word, or past the second word of a load-and-branch. -/
theorem dispatch_fall {n : Nat} (hg : (dispatch h r p w w2).2.2 = .fall n) :
    n = 1 ∨ n = 2 ∧ (TC_OP w = RISCV_OP_LW_BZ ∨ TC_OP w = RISCV_OP_LBU_BZ) := by
  have hbz : ∀ T, (hLoadBz h r p w w2 T).2.2 = .fall n → n = 2 := by
    intro T hT
    unfold hLoadBz at hT
    simp only at hT
    split at hT
    · cases hT
    · cases hT
      rfl
  have hbr : ∀ taken, (hBranch r p w taken).2.2 = .fall n → n = 1 := by
    intro taken hT
    unfold hBranch at hT
    split at hT
    · cases hT
    · cases hT
      rfl
  revert hg
  unfold dispatch
  simp only
  split
  case h_36 | h_37 | h_38 | h_39 | h_40 | h_41 => exact fun hg => .inl (hbr _ hg)
  case h_54 hop => exact fun hg => .inr ⟨hbz _ hg, .inl hop⟩
  case h_55 hop => exact fun hg => .inr ⟨hbz _ hg, .inr hop⟩
  case h_59 =>
    intro hg
    unfold hTrap at hg
    cases hg
  all_goals
    intro hg
    first
      | cases hg
        exact .inl rfl
      | cases hg

/-- **What one op counts.** -/
theorem dispatch_charge : (dispatch h r p w w2).2.1 ≤ 2 ^ 32 := by
  have hone : 1 ≤ 2 ^ 32 := by decide
  have htwo : 2 ≤ 2 ^ 32 := by decide
  have hthree : 3 ≤ 2 ^ 32 := by decide
  unfold dispatch
  simp only
  split
  case h_47 =>
    have := maskRegs_length (w >>> 13)
    unfold prologue
    simp only
    omega
  case h_48 =>
    have := maskRegs_length (w >>> 13)
    unfold epilogue
    simp only
    omega
  case h_58 => exact purvMemop_fuel ..
  case h_59 => exact hone
  case h_57 => exact hthree
  case h_51 | h_52 | h_53 | h_54 | h_55 | h_56 => exact htwo
  all_goals exact hone

end

/-! ## Straight lines -/

section
variable (h : Hooks H) (m : Image)

/-- One op of a straight line: the next one follows it. -/
def Forward (q q' : OpCursor H) : Prop :=
  ∃ w r c n, m.ops[q.p]? = some w ∧ q.dispatch h m w = (r, c, .fall n) ∧
    q' = ⟨r, q.p + n, q.k + c⟩ ∧
    (n = 1 ∨ n = 2 ∧ (TC_OP w = RISCV_OP_LW_BZ ∨ TC_OP w = RISCV_OP_LBU_BZ))

/-- From the cursor `q`, a call ends with `res` at one of the ops that it comes to; the ops before
that one, once the budget is used up, are on a straight line. -/
def Returns (max : Nat) (q : OpCursor H) (res : Result H) : Prop :=
  ∃ n last, iter (advance h m) n q = some last ∧
    loopFrom h m.ops m.prog.code_len max 1 last.r last.p last.k = res ∧
    (res.stop = .window ∨ res.stop = .budget ∨ res.stop = .trap) ∧
    ∀ i < n, ∀ q1, iter (advance h m) i q = some q1 → max ≤ q1.k →
      ∃ q2, advance h m q1 = some q2 ∧ Forward h m q1 q2

variable {h m}

theorem returns_now {max : Nat} {q : OpCursor H} {res : Result H}
    (hres : loopFrom h m.ops m.prog.code_len max 1 q.r q.p q.k = res)
    (hstop : res.stop = .window ∨ res.stop = .budget ∨ res.stop = .trap) : Returns h m max q res :=
  ⟨0, q, rfl, hres, hstop, fun _ hi => absurd hi (Nat.not_lt_zero _)⟩

/-- One op before the rest. -/
theorem returns_step {max : Nat} {q q' : OpCursor H} {res : Result H}
    (hq : advance h m q = some q') (hforward : max ≤ q.k → Forward h m q q')
    (hres : Returns h m max q' res) : Returns h m max q res := by
  obtain ⟨n, last, hn, hlast, hstop, hrest⟩ := hres
  refine ⟨n + 1, last, ?_, hlast, hstop, fun i hi q1 hq1 hk => ?_⟩
  · rw [iter_succ hq]
    exact hn
  · cases i with
    | zero =>
      cases hq1
      exact ⟨q', hq, hforward hk⟩
    | succ i =>
      rw [iter_succ hq] at hq1
      exact hrest i (Nat.lt_of_succ_lt_succ hi) q1 hq1 hk

/-- What the loop does after an op. -/
def landFrom (h : Hooks H) (m : Image) (max fuel : Nat) (q : OpCursor H) :
    Run H × Nat × Goto → Result H
  | (r, c, .fall n) => loopFrom h m.ops m.prog.code_len max fuel r (q.p + n) (q.k + c)
  | (r, c, .reloc idx) =>
    if q.k + c ≥ max then ⟨r.setPc (idx <<< 2), q.k + c, .budget⟩
    else loopFrom h m.ops m.prog.code_len max fuel r idx.toNat (q.k + c)
  | (r, c, .indirect t) =>
    if t ≥ m.prog.code_len then ⟨r.setPc t, q.k + c, .window⟩
    else if q.k + c ≥ max then ⟨r.setPc t, q.k + c, .budget⟩
    else loopFrom h m.ops m.prog.code_len max fuel r (t >>> 2).toNat (q.k + c)
  | (r, c, .trap true) => ⟨r, q.k + c, .trap⟩
  | (r, c, .trap false) =>
    if q.k + c ≥ max then ⟨r.setPc (BitVec.ofNat 32 q.p <<< 2 + 4#32), q.k + c, .budget⟩
    else loopFrom h m.ops m.prog.code_len max fuel r (q.p + 1) (q.k + c)

theorem loopFrom_op {max : Nat} (fuel : Nat) {q : OpCursor H} {w : Word}
    (hw : m.ops[q.p]? = some w) :
    loopFrom h m.ops m.prog.code_len max (fuel + 1) q.r q.p q.k =
      landFrom h m max fuel q (q.dispatch h m w) := by
  rw [loopFrom, hw]
  rfl

theorem advance_op {q : OpCursor H} {w : Word} (hw : m.ops[q.p]? = some w) :
    advance h m q = q.land m (q.dispatch h m w) := by
  unfold advance
  rw [hw]

/-- **A call returns.**  The dispatches that are left go down with each op; `2 ^ 32` for each word
behind the cursor bounds what the count is past the budget. -/
theorem loopFrom_returns {max : Nat} (fuel : Nat) (q : OpCursor H)
    (hin : Always (advance h m) (fun q => q.p < m.ops.length) q)
    (hk : q.k < max + 2 ^ 32 * q.p) (hfuel : dispatchesLeft m max q < fuel) :
    Returns h m max q (loopFrom h m.ops m.prog.code_len max fuel q.r q.p q.k) ∧
      (loopFrom h m.ops m.prog.code_len max fuel q.r q.p q.k).k <
        max + 2 ^ 32 * m.ops.length := by
  induction fuel generalizing q with
  | zero => omega
  | succ fuel ih =>
    have hp : q.p < m.ops.length := hin 0 q rfl
    have hget := List.getElem?_eq_getElem hp
    have hadv : advance h m q = _ := advance_op hget
    have hloop := fun fuel => @loopFrom_op H h m max fuel q _ hget
    have hgoes : Goes _ (q.dispatch h m m.ops[q.p]) := dispatch_goes q.r ..
    have hcharge : (q.dispatch h m m.ops[q.p]).2.1 ≤ 2 ^ 32 := dispatch_charge ..
    have hforward : ∀ r c n, q.dispatch h m m.ops[q.p] = (r, c, .fall n) →
        Forward h m q ⟨r, q.p + n, q.k + c⟩ := fun r c n ho =>
      ⟨_, r, c, n, hget, ho, rfl, dispatch_fall h q.r _ _ _ (congrArg (·.2.2) ho)⟩
    have hnow : ∀ res, loopFrom h m.ops m.prog.code_len max (fuel + 1) q.r q.p q.k = res →
        loopFrom h m.ops m.prog.code_len max 1 q.r q.p q.k = res →
        (res.stop = .window ∨ res.stop = .budget ∨ res.stop = .trap) → res.k ≤ q.k + 2 ^ 32 →
        Returns h m max q (loopFrom h m.ops m.prog.code_len max (fuel + 1) q.r q.p q.k) ∧
          (loopFrom h m.ops m.prog.code_len max (fuel + 1) q.r q.p q.k).k <
            max + 2 ^ 32 * m.ops.length := by
      intro res hres hres' hstop hle
      rw [hres]
      refine ⟨returns_now hres' hstop, ?_⟩
      have : 2 ^ 32 * (q.p + 1) ≤ 2 ^ 32 * m.ops.length := Nat.mul_le_mul_left _ hp
      omega
    have hnext : ∀ q1, advance h m q = some q1 → (max ≤ q.k → Forward h m q q1) →
        q1.k < max + 2 ^ 32 * q1.p → dispatchesLeft m max q1 < dispatchesLeft m max q →
        loopFrom h m.ops m.prog.code_len max (fuel + 1) q.r q.p q.k =
          loopFrom h m.ops m.prog.code_len max fuel q1.r q1.p q1.k →
        Returns h m max q (loopFrom h m.ops m.prog.code_len max (fuel + 1) q.r q.p q.k) ∧
          (loopFrom h m.ops m.prog.code_len max (fuel + 1) q.r q.p q.k).k <
            max + 2 ^ 32 * m.ops.length := by
      intro q1 hq1 hforward hk1 hlt hloop
      rw [hloop]
      obtain ⟨hret, hbound⟩ := ih q1 (always_iter hin (iter_one hq1)) hk1 (by omega)
      exact ⟨returns_step hq1 hforward hret, hbound⟩
    have hinside : ∀ q1, advance h m q = some q1 → q1.p < m.ops.length :=
      fun q1 hq1 => hin 1 q1 (iter_one hq1)
    revert hadv hcharge hforward hloop
    generalize q.dispatch h m m.ops[q.p] = o at hgoes
    intro hadv hloop hcharge hforward
    unfold dispatchesLeft at hnext
    have hp' : 2 ^ 32 * (q.p + 1) = 2 ^ 32 * q.p + 2 ^ 32 := Nat.mul_succ _ _
    cases hgoes with
    | @fall r c n hc hn =>
      have hp1 := hinside _ hadv
      have hn' : 2 ^ 32 * (q.p + 1) ≤ 2 ^ 32 * (q.p + n) := Nat.mul_le_mul_left _ (by omega)
      refine hnext _ hadv (fun _ => hforward r c n rfl) (by simp only at hcharge ⊢; omega) ?_
        (hloop fuel)
      simp only at hp1 ⊢
      split <;> split <;> omega
    | @reloc r c idx hc =>
      by_cases hmax : q.k + c ≥ max
      · refine hnow _ ((hloop fuel).trans (if_pos hmax)) ((hloop 0).trans (if_pos hmax))
          (.inr (.inl rfl)) (by simp only at hcharge ⊢; omega)
      · refine hnext _ hadv (fun hk => absurd hk (by omega)) (by simp only; omega) ?_
          ((hloop fuel).trans (if_neg hmax))
        simp only
        split <;> split <;> omega
    | @indirect r c t hc =>
      by_cases hwin : t ≥ m.prog.code_len
      · exact hnow _ ((hloop fuel).trans (if_pos hwin)) ((hloop 0).trans (if_pos hwin))
          (.inl rfl) (by simp only at hcharge ⊢; omega)
      · have hq1 : advance h m q = some ⟨r, (t >>> 2).toNat, q.k + c⟩ :=
          hadv.trans (if_neg hwin)
        have hgo := fun fuel => (hloop fuel).trans (if_neg hwin)
        by_cases hmax : q.k + c ≥ max
        · refine hnow _ ((hgo fuel).trans (if_pos hmax)) ((hgo 0).trans (if_pos hmax))
            (.inr (.inl rfl)) (by simp only at hcharge ⊢; omega)
        · refine hnext _ hq1 (fun hk => absurd hk (by omega)) (by simp only; omega) ?_
            ((hgo fuel).trans (if_neg hmax))
          simp only
          split <;> split <;> omega
    | @trap r c stop hc ht =>
      cases stop with
      | true =>
        exact hnow _ (hloop fuel) (hloop 0) (.inr (.inr rfl)) (Nat.add_le_add_left hcharge q.k)
      | false =>
        have hp1 : q.p + 1 < m.ops.length := hinside _ hadv
        by_cases hmax : q.k + c ≥ max
        · refine hnow _ ((hloop fuel).trans (if_pos hmax)) ((hloop 0).trans (if_pos hmax))
            (.inr (.inl rfl)) (by simp only at hcharge ⊢; omega)
        · refine hnext _ hadv (fun hk => absurd hk (by omega)) (by simp only; omega) ?_
            ((hloop fuel).trans (if_neg hmax))
          simp only
          split <;> split <;> omega

/-- **The loop ends, and goes past its budget by one straight line at most.**  Once the budget is
used up, each op but the last one falls to the next; the last one is a jump or a trap that returns,
and what is counted past the budget is less than `2 ^ 32` for each word of the program. -/
theorem riscvEmulatorLoop_returns (h : Hooks H) (m : Image) (r : Run H) {max : Nat} (hmax : 1 ≤ max)
    (hin : Inside h m r) :
    (r.s.pc ≥ m.prog.code_len ∧ riscvEmulatorLoop h m.prog r max = ⟨r, 0, .window⟩) ∨
      (Returns h m max (OpCursor.start r) (riscvEmulatorLoop h m.prog r max) ∧
        (riscvEmulatorLoop h m.prog r max).k < max + 2 ^ 32 * m.ops.length) := by
  unfold riscvEmulatorLoop
  by_cases hpc : r.s.pc ≥ m.prog.code_len
  · rw [if_pos hpc]
    exact .inl ⟨hpc, rfl⟩
  · rw [if_neg hpc]
    refine .inr (loopFrom_returns (max + m.ops.length + 1) (OpCursor.start r)
      (hin (BitVec.not_le.mp hpc)) ?_ ?_)
    · unfold OpCursor.start
      simp only
      omega
    · unfold dispatchesLeft OpCursor.start
      simp only
      split <;> omega

end

/-- A use of `riscvEmulatorLoop_returns`: the exit, with a budget of 1. -/
theorem riscvEmulatorLoop_returns_exit :
    (exitRun.s.pc ≥ exitImage.prog.code_len ∧
      riscvEmulatorLoop (purvaHooks ⟨none, none⟩ 0) exitImage.prog exitRun 1 =
        ⟨exitRun, 0, .window⟩) ∨
      (Returns (purvaHooks ⟨none, none⟩ 0) exitImage 1 (OpCursor.start exitRun)
          (riscvEmulatorLoop (purvaHooks ⟨none, none⟩ 0) exitImage.prog exitRun 1) ∧
        (riscvEmulatorLoop (purvaHooks ⟨none, none⟩ 0) exitImage.prog exitRun 1).k <
          1 + 2 ^ 32 * exitImage.ops.length) :=
  riscvEmulatorLoop_returns (purvaHooks ⟨none, none⟩ 0) exitImage exitRun (le_refl 1)
    exitRun_inside

end Purv.Purva
