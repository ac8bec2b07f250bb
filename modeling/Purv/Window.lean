import Purv.Engine

/-!
# The windowed loop is the instruction-by-instruction loop

* `stepwise` — the loop one would write first: before each instruction, stop unless the whole
  instruction lies below `code_len`;
* `window_stepwise` — inside a window that fits, the inner loop takes the same steps;
* `riscvEmulatorLoop_eq` — so `RiscvEmulatorLoop` is `stepwise`, for every code pointer, length,
  pc, budget, program and handler.
-/

namespace Purv

variable {H : Type}

/-- The instruction at `pc` lies whole in `[0, code_len)`. -/
def Fetchable (code : Nat → Byte) (null : Bool) (code_len pc : Word) : Prop :=
  null = false ∧ pc.toNat + 2 ≤ code_len.toNat ∧
    ((fetchHalf code pc).extractLsb' 0 2 = 3#2 → pc.toNat + 4 ≤ code_len.toNat)

instance (code : Nat → Byte) (null : Bool) (code_len pc : Word) :
    Decidable (Fetchable code null code_len pc) :=
  inferInstanceAs (Decidable (_ ∧ _ ∧ (_ → _)))

/-- The per-instruction-checked loop with `n` instructions left. -/
def stepwise (h : Hooks H) (code : Buf) (code_len : Word) : Nat → Run H → Word → Nat → Result H
  | 0, r, pc, k => ⟨r.setPc pc, k, .budget⟩
  | n + 1, r, pc, k =>
    if Fetchable (r.s.mem code) (code == 0) code_len pc then
      let i := fetch (r.s.mem code) pc
      match oneInsn h r pc i with
      | (r, .done) => stepwise h code code_len n r (pc + i.width) (k + 1)
      | (r, .jump t) => stepwise h code code_len n r t (k + 1)
      | (r, .out) => ⟨r.setPc pc, k + 1, .trap⟩
    else ⟨r.setPc pc, k, .fetch⟩

theorem width_le (i : Insn) : i.width.toNat ≤ 4 := by
  cases i <;> simp [Insn.width]

theorem toNat_add_width {pc : Word} (i : Insn) (h : pc.toNat + 4 < 2 ^ 32) :
    (pc + i.width).toNat ≤ pc.toNat + 4 := by
  have := width_le i
  rw [BitVec.toNat_add_of_lt (by omega)]
  omega

/-- A window is left with a larger count, or was empty. -/
theorem window_count (h : Hooks H) (code : Buf) (max : Nat) :
    ∀ (safe : Nat) (r : Run H) (pc : Word) (k : Nat),
      k ≤ (window h code max safe r pc k).2.2.1 ∧
        (0 < safe → k < max → k < (window h code max safe r pc k).2.2.1)
  | 0, _, _, _ => by simp [window]
  | safe + 1, r, pc, k => by
    unfold window
    split
    · rename_i hk
      simp only
      split
      · rename_i r' _
        have ih := window_count h code max safe r' (pc + (fetch (r.s.mem code) pc).width) (k + 1)
        exact ⟨by omega, fun _ _ => by omega⟩
      · simp
      · simp
    · rename_i hk
      exact ⟨Nat.le_refl _, fun _ hk' => absurd hk' hk⟩

/-- **A window that fits takes the steps of the checked loop**, and hands the rest over. -/
theorem window_stepwise (h : Hooks H) {code : Buf} (hcode : (code == 0) = false)
    (code_len : Word) (max : Nat) :
    ∀ (safe : Nat) (r : Run H) (pc : Word) (k : Nat),
      (∀ j < safe, pc.toNat + 4 * j + 4 ≤ code_len.toNat) →
      stepwise h code code_len (max - k) r pc k =
        match window h code max safe r pc k with
        | (r, pc, k, true) => ⟨r.setPc pc, k, .trap⟩
        | (r, pc, k, false) => stepwise h code code_len (max - k) r pc k
  | 0, _, _, _, _ => rfl
  | safe + 1, r, pc, k, hfit => by
    by_cases hk : k < max
    · simp only [window, if_pos hk]
      have h0 := hfit 0 (by omega)
      have hf : Fetchable (r.s.mem code) (code == 0) code_len pc :=
        ⟨hcode, by omega, fun _ => by omega⟩
      obtain ⟨m, hm⟩ : ∃ m, max - k = m + 1 := ⟨max - k - 1, by omega⟩
      have hm' : max - (k + 1) = m := by omega
      rw [hm, stepwise, if_pos hf]
      simp only
      cases hi : oneInsn h r pc (fetch (r.s.mem code) pc) with
      | mk r' nx =>
        cases nx with
        | done =>
          simp only
          rw [← hm']
          refine window_stepwise h hcode code_len max safe r' _ (k + 1) (fun j hj => ?_)
          have h1 := hfit (j + 1) (by omega)
          have hlt := code_len.isLt
          have hw : (pc + (fetch (r.s.mem code) pc).width).toNat ≤ pc.toNat + 4 :=
            toNat_add_width _ (by omega)
          omega
        | jump t => simp only; rw [hm']
        | out => rfl
    · simp only [window, if_neg hk]

/-- The single unchecked instruction at the tail of the window, a compressed one. -/
theorem tail_stepwise (h : Hooks H) {code : Buf} (hcode : (code == 0) = false) {code_len pc : Word}
    {max k : Nat} {r : Run H} (hfit : pc.toNat + 2 ≤ code_len.toNat) (hk : k < max)
    (hlo : (fetchHalf (r.s.mem code) pc).extractLsb' 0 2 ≠ 3#2) :
    stepwise h code code_len (max - k) r pc k =
      match window h code max 1 r pc k with
      | (r, pc, k, true) => ⟨r.setPc pc, k, .trap⟩
      | (r, pc, k, false) => stepwise h code code_len (max - k) r pc k := by
  have hf : Fetchable (r.s.mem code) (code == 0) code_len pc :=
    ⟨hcode, hfit, fun h3 => absurd h3 hlo⟩
  obtain ⟨m, hm⟩ : ∃ m, max - k = m + 1 := ⟨max - k - 1, by omega⟩
  have hm' : max - (k + 1) = m := by omega
  rw [hm, stepwise, if_pos hf]
  simp only [window, if_pos hk]
  cases oneInsn h r pc (fetch (r.s.mem code) pc) with
  | mk r' nx => cases nx <;> simp only [hm']

/-- What `safeCount` promises about the instructions it counts. -/
theorem safeCount_some {code : Nat → Byte} {null : Bool} {code_len pc : Word} {safe : Nat}
    (h : safeCount code null code_len pc = some safe) :
    null = false ∧ 0 < safe ∧
      ((∀ j < safe, pc.toNat + 4 * j + 4 ≤ code_len.toNat) ∨
        (safe = 1 ∧ pc.toNat + 2 ≤ code_len.toNat ∧
          (fetchHalf code pc).extractLsb' 0 2 ≠ 3#2)) := by
  unfold safeCount at h
  split at h
  · cases h
  rename_i hn
  simp only [not_or, Bool.not_eq_true, BitVec.not_le, BitVec.not_lt] at hn
  obtain ⟨hnull, hlt, h2⟩ := hn
  have hsub : (code_len - pc).toNat = code_len.toNat - pc.toNat :=
    BitVec.toNat_sub_of_le (BitVec.le_of_lt hlt)
  rw [BitVec.lt_def] at hlt
  rw [BitVec.le_def, hsub, show (2#32).toNat = 2 from rfl] at h2
  split at h
  · split at h
    · cases h
    · rename_i hlo
      cases h
      exact ⟨hnull, by omega, Or.inr ⟨rfl, by omega, hlo⟩⟩
  · rename_i h4
    cases h
    rw [BitVec.not_lt, BitVec.le_def, hsub, show (4#32).toNat = 4 from rfl] at h4
    rw [BitVec.toNat_udiv, hsub, show (4#32).toNat = 4 from rfl]
    exact ⟨hnull, by omega, Or.inl fun j hj => by omega⟩

/-- No window means nothing fetchable. -/
theorem safeCount_none {code : Nat → Byte} {null : Bool} {code_len pc : Word}
    (h : safeCount code null code_len pc = none) : ¬ Fetchable code null code_len pc := by
  rintro ⟨hnull, h2, h4⟩
  have hlt : pc.toNat < code_len.toNat := by omega
  have hsub : (code_len - pc).toNat = code_len.toNat - pc.toNat :=
    BitVec.toNat_sub_of_le (by rw [BitVec.le_def]; omega)
  have hn : ¬ (null = true ∨ code_len ≤ pc ∨ code_len - pc < 2#32) := by
    rintro (hc | hc | hc)
    · rw [hnull] at hc; cases hc
    · rw [BitVec.le_def] at hc; omega
    · rw [BitVec.lt_def, hsub, show (2#32).toNat = 2 from rfl] at hc; omega
  unfold safeCount at h
  rw [if_neg hn] at h
  split at h
  · rename_i hlt4
    rw [BitVec.lt_def, hsub, show (4#32).toNat = 4 from rfl] at hlt4
    split at h
    · rename_i hlo
      have := h4 hlo
      omega
    · cases h
  · cases h

/-- **Enough rounds of the outer loop are the checked loop.** -/
theorem loopFrom_eq (h : Hooks H) (code : Buf) (code_len : Word) (max : Nat) :
    ∀ (rounds : Nat) (r : Run H) (pc : Word) (k : Nat), max ≤ rounds + k →
      loopFrom h code code_len max rounds r pc k = stepwise h code code_len (max - k) r pc k
  | 0, r, pc, k, hr => by
    rw [show max - k = 0 by omega]; rfl
  | rounds + 1, r, pc, k, hr => by
    unfold loopFrom
    split
    · rename_i hk
      split
      · rename_i hs
        obtain ⟨m, hm⟩ : ∃ m, max - k = m + 1 := ⟨max - k - 1, by omega⟩
        rw [hm, stepwise, if_neg (safeCount_none hs)]
      · rename_i safe hs
        obtain ⟨hnull, hpos, hfit⟩ := safeCount_some hs
        have hstep : stepwise h code code_len (max - k) r pc k =
            match window h code max safe r pc k with
            | (r, pc, k, true) => ⟨r.setPc pc, k, .trap⟩
            | (r, pc, k, false) => stepwise h code code_len (max - k) r pc k := by
          rcases hfit with hfit | ⟨rfl, h2, hlo⟩
          · exact window_stepwise h hnull code_len max safe r pc k hfit
          · exact tail_stepwise h hnull h2 hk hlo
        have hcount := (window_count h code max safe r pc k).2 hpos hk
        rw [hstep]
        rcases hw : window h code max safe r pc k with ⟨r', pc', k', out⟩
        rw [hw] at hcount
        simp only at hcount
        cases out with
        | true => rfl
        | false => exact loopFrom_eq h code code_len max rounds r' pc' k' (by omega)
    · rename_i hk
      rw [show max - k = 0 by omega]; rfl

/-- **`RiscvEmulatorLoop` performs exactly the steps of the checked loop.** -/
theorem riscvEmulatorLoop_eq (h : Hooks H) (r : Run H) (max : Nat) :
    riscvEmulatorLoop h r max = stepwise h r.s.readonly.ptr r.s.readonly.len max r r.s.pc 0 := by
  unfold riscvEmulatorLoop
  rw [loopFrom_eq h _ _ _ _ _ _ _ (by omega)]
  rfl

/-- Where an iteration at `pc` leaves the loop, one instruction later. -/
def landed (pc width : Word) : Run H × Next → Result H
  | (r, .done) => ⟨r.setPc (pc + width), 1, .budget⟩
  | (r, .jump t) => ⟨r.setPc t, 1, .budget⟩
  | (r, .out) => ⟨r.setPc pc, 1, .trap⟩

/-- A budget of one is one instruction. -/
theorem riscvEmulatorLoop_one (h : Hooks H) (r : Run H)
    (hf : Fetchable (r.s.mem r.s.readonly.ptr) (r.s.readonly.ptr == 0) r.s.readonly.len r.s.pc) :
    riscvEmulatorLoop h r 1 =
      landed r.s.pc (fetch (r.s.mem r.s.readonly.ptr) r.s.pc).width
        (oneInsn h r r.s.pc (fetch (r.s.mem r.s.readonly.ptr) r.s.pc)) := by
  rw [riscvEmulatorLoop_eq, stepwise, if_pos hf]
  simp only
  generalize oneInsn h r r.s.pc (fetch (r.s.mem r.s.readonly.ptr) r.s.pc) = out
  rcases out with ⟨r', nx⟩
  cases nx <;> rfl

end Purv
