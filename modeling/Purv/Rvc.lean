import Purv.IsaRefine

/-!
# Compressed instructions are their expansions

* `expand` — the 32-bit instruction that the RVC specification gives each defined RV32C
  halfword; reserved forms, RV64 forms, custom shifts and floating-point slots have none;
* `Unimplemented` — the halfwords the interpreter must refuse;
* `execute_expand` — the compressed decode arms run the expansion's action body;
* `riscvEmulatorLoop_compressed` — so one iteration of the loop on a compressed instruction is
  one on its expansion.
-/

namespace Purv

open Bits Isa

variable {H : Type}

/-! ## The expansions -/

/-- `rd'`, `rs1'`, `rs2'`: three bits for `x8..x15`. -/
def popular (f : BitVec 3) : Reg := cat 5 1#2 f

/-- `C.ADDI4SPN`: `nzuimm[5:4|9:6|2|3]` in bits 12 to 5. -/
def rvcAddi4spn (c : Half) : BitVec 12 :=
  cat 12 (c.extractLsb' 7 4) (cat 6 (c.extractLsb' 11 2) (cat 4 (c.extractLsb' 5 1)
    (cat 3 (c.extractLsb' 6 1) 0#2)))

/-- `C.LW`, `C.SW`: `uimm[5:3]` in bits 12 to 10, `uimm[2|6]` in bits 6 and 5. -/
def rvcLw (c : Half) : BitVec 12 :=
  cat 12 (c.extractLsb' 5 1) (cat 6 (c.extractLsb' 10 3) (cat 3 (c.extractLsb' 6 1) 0#2))

/-- `imm[5]` in bit 12, `imm[4:0]` in bits 6 to 2. -/
def rvcImm6 (c : Half) : BitVec 6 := cat 6 (c.extractLsb' 12 1) (c.extractLsb' 2 5)

/-- `C.J`: `imm[11|4|9:8|10|6|7|3:1|5]` in bits 12 to 2; without the low zero. -/
def rvcJ (c : Half) : BitVec 11 :=
  cat 11 (c.extractLsb' 12 1) (cat 10 (c.extractLsb' 8 1) (cat 9 (c.extractLsb' 9 2)
    (cat 7 (c.extractLsb' 6 1) (cat 6 (c.extractLsb' 7 1) (cat 5 (c.extractLsb' 2 1)
      (cat 4 (c.extractLsb' 11 1) (c.extractLsb' 3 3)))))))

/-- `C.ADDI16SP`: `nzimm[9]` in bit 12, `nzimm[4|6|8:7|5]` in bits 6 to 2. -/
def rvcAddi16sp (c : Half) : BitVec 10 :=
  cat 10 (c.extractLsb' 12 1) (cat 9 (c.extractLsb' 3 2) (cat 7 (c.extractLsb' 5 1)
    (cat 6 (c.extractLsb' 2 1) (cat 5 (c.extractLsb' 6 1) 0#4))))

/-- `C.BEQZ`: `imm[8|4:3]` in bits 12 to 10, `imm[7:6|2:1|5]` in bits 6 to 2; without the low
zero. -/
def rvcB (c : Half) : BitVec 8 :=
  cat 8 (c.extractLsb' 12 1) (cat 7 (c.extractLsb' 5 2) (cat 5 (c.extractLsb' 2 1)
    (cat 4 (c.extractLsb' 10 2) (c.extractLsb' 3 2))))

/-- `C.LWSP`: `uimm[5]` in bit 12, `uimm[4:2|7:6]` in bits 6 to 2. -/
def rvcLwsp (c : Half) : BitVec 12 :=
  cat 12 (c.extractLsb' 2 2) (cat 6 (c.extractLsb' 12 1) (cat 5 (c.extractLsb' 4 3) 0#2))

/-- `C.SWSP`: `uimm[5:2|7:6]` in bits 12 to 7. -/
def rvcSwsp (c : Half) : BitVec 12 :=
  cat 12 (c.extractLsb' 7 2) (cat 6 (c.extractLsb' 9 4) 0#2)

/-- Quadrant 1, `funct3 = 100`. -/
def expandMiscAlu (c : Half) : Option Instr :=
  let rd := popular (c.extractLsb' 7 3)
  let rs2 := popular (c.extractLsb' 2 3)
  match (c.extractLsb' 10 2).toNat with
  | 0 => if c.extractLsb' 12 1 = 0#1 then some (.shiftImm .srli rd rd (c.extractLsb' 2 5)) else none
  | 1 => if c.extractLsb' 12 1 = 0#1 then some (.shiftImm .srai rd rd (c.extractLsb' 2 5)) else none
  | 2 => some (.opImm .andi rd rd ((rvcImm6 c).signExtend 12))
  | _ =>
    if c.extractLsb' 12 1 = 0#1 then
      match (c.extractLsb' 5 2).toNat with
      | 0 => some (.op .sub rd rd rs2)
      | 1 => some (.op .xor rd rd rs2)
      | 2 => some (.op .or rd rd rs2)
      | _ => some (.op .and rd rd rs2)
    else none

/-- Quadrant 2, `funct3 = 100`. -/
def expandJrMvAdd (c : Half) : Option Instr :=
  let rd : Reg := c.extractLsb' 7 5
  let rs2 : Reg := c.extractLsb' 2 5
  if c.extractLsb' 12 1 = 0#1 then
    if rs2 = 0#5 then
      if rd = 0#5 then none else some (.jalr 0#5 rd 0#12)
    else some (.op .add rd 0#5 rs2)
  else if rs2 = 0#5 then
    if rd = 0#5 then some .ebreak else some (.jalr 1#5 rd 0#12)
  else some (.op .add rd rd rs2)

/-- **The expansion of a defined RV32C halfword.** -/
def expand (c : Half) : Option Instr :=
  let rd : Reg := c.extractLsb' 7 5
  let rd' := popular (c.extractLsb' 2 3)
  let rs1' := popular (c.extractLsb' 7 3)
  match (c.extractLsb' 0 2).toNat, (c.extractLsb' 13 3).toNat with
  | 0, 0 => if rvcAddi4spn c = 0#12 then none else some (.opImm .addi rd' 2#5 (rvcAddi4spn c))
  | 0, 2 => some (.load .w rd' rs1' (rvcLw c))
  | 0, 6 => some (.store .w rs1' rd' (rvcLw c))
  | 1, 0 => some (.opImm .addi rd rd ((rvcImm6 c).signExtend 12))
  | 1, 1 => some (.jal 1#5 ((rvcJ c).signExtend 20))
  | 1, 2 => some (.opImm .addi rd 0#5 ((rvcImm6 c).signExtend 12))
  | 1, 3 =>
    if rd = 2#5 then
      if rvcAddi16sp c = 0#10 then none
      else some (.opImm .addi 2#5 2#5 ((rvcAddi16sp c).signExtend 12))
    else if rvcImm6 c = 0#6 then none else some (.lui rd ((rvcImm6 c).signExtend 20))
  | 1, 4 => expandMiscAlu c
  | 1, 5 => some (.jal 0#5 ((rvcJ c).signExtend 20))
  | 1, 6 => some (.branch .eq rs1' 0#5 ((rvcB c).signExtend 12))
  | 1, 7 => some (.branch .ne rs1' 0#5 ((rvcB c).signExtend 12))
  | 2, 0 => if c.extractLsb' 12 1 = 0#1 then some (.shiftImm .slli rd rd (c.extractLsb' 2 5)) else none
  | 2, 2 => if rd = 0#5 then none else some (.load .w rd 2#5 (rvcLwsp c))
  | 2, 4 => expandJrMvAdd c
  | 2, 6 => some (.store .w 2#5 (c.extractLsb' 2 5) (rvcSwsp c))
  | _, _ => none

/-- The halfwords to refuse: all zero, the reserved zero immediates of `C.ADDI4SPN`,
`C.ADDI16SP` and `C.LUI`, the RV64 register forms, and the floating-point slots. -/
inductive Unimplemented (c : Half) : Prop where
  | zero (h : c = 0#16)
  | addi4spn (hq : c.extractLsb' 0 2 = 0#2) (hf : c.extractLsb' 13 3 = 0#3)
      (hz : rvcAddi4spn c = 0#12)
  | addi16sp (hq : c.extractLsb' 0 2 = 1#2) (hf : c.extractLsb' 13 3 = 3#3)
      (hr : c.extractLsb' 7 5 = 2#5) (hz : rvcAddi16sp c = 0#10)
  | lui (hq : c.extractLsb' 0 2 = 1#2) (hf : c.extractLsb' 13 3 = 3#3)
      (hr : c.extractLsb' 7 5 ≠ 2#5) (hz : rvcImm6 c = 0#6)
  | rv64 (hq : c.extractLsb' 0 2 = 1#2) (hf : c.extractLsb' 13 3 = 4#3)
      (ho : c.extractLsb' 10 2 = 3#2) (hw : c.extractLsb' 12 1 = 1#1)
  | float (hq : c.extractLsb' 0 2 = 0#2 ∨ c.extractLsb' 0 2 = 2#2)
      (hf : c.extractLsb' 13 3 = 1#3 ∨ c.extractLsb' 13 3 = 3#3 ∨ c.extractLsb' 13 3 = 5#3 ∨
        c.extractLsb' 13 3 = 7#3)

/-! ## Immediates -/

theorem primeReg_eq (c : Half) (lo : Nat) : primeReg c lo = popular (c.extractLsb' lo 3) := by
  unfold primeReg popular
  generalize c.extractLsb' lo 3 = f
  revert f
  decide

theorem addi4spnImm_eq (c : Half) : addi4spnImm c = (rvcAddi4spn c).signExtend 32 := by
  ext i hi
  unfold addi4spnImm rvcAddi4spn
  rw [BitVec.getElem_signExtend, BitVec.msb_eq_getLsbD_last]
  interval_cases i <;> simp [getElem_bits, getElem_cat]

theorem clwImm_eq (c : Half) : clwImm c = (rvcLw c).signExtend 32 := by
  ext i hi
  unfold clwImm rvcLw
  rw [BitVec.getElem_signExtend, BitVec.msb_eq_getLsbD_last]
  interval_cases i <;> simp [getElem_bits, getElem_cat]

theorem clwspImm_eq (c : Half) : clwspImm c = (rvcLwsp c).signExtend 32 := by
  ext i hi
  unfold clwspImm rvcLwsp
  rw [BitVec.getElem_signExtend, BitVec.msb_eq_getLsbD_last]
  interval_cases i <;> simp [getElem_bits, getElem_cat]

theorem cswspImm_eq (c : Half) : cswspImm c = (rvcSwsp c).signExtend 32 := by
  ext i hi
  unfold cswspImm rvcSwsp
  rw [BitVec.getElem_signExtend, BitVec.msb_eq_getLsbD_last]
  interval_cases i <;> simp [getElem_bits, getElem_cat]

theorem shamt_eq {c : Half} (h : c.extractLsb' 12 1 = 0#1) :
    shamt c = (c.extractLsb' 2 5).setWidth 32 := by
  unfold shamt
  rw [show bits c 12 1 = 0#32 by unfold bits; rw [h]; rfl]
  simp [bits]

theorem ciImm_eq (c : Half) :
    sext (shamt c) 6 = ((rvcImm6 c).signExtend 12).signExtend 32 := by
  rw [sext_eq _ _ (by decide) (by decide), signExtend_signExtend _ (by decide) (by decide)]
  congr 1
  ext i hi
  unfold shamt rvcImm6
  interval_cases i <;> simp [getElem_bits, getElem_cat]

theorem addi16spImm_eq (c : Half) :
    addi16spImm c = ((rvcAddi16sp c).signExtend 12).signExtend 32 := by
  unfold addi16spImm rvcAddi16sp
  rw [sext_eq _ _ (by decide) (by decide), signExtend_signExtend _ (by decide) (by decide)]
  congr 1
  ext i hi
  interval_cases i <;> simp [getElem_bits, getElem_cat]

theorem cjImm_eq (c : Half) : cjImm c = jalOffset ((rvcJ c).signExtend 20) := by
  ext i hi
  unfold cjImm jalOffset rvcJ
  rw [getElem_sext _ _ _ _ (by decide) (by decide), BitVec.getElem_signExtend,
    BitVec.msb_eq_getLsbD_last]
  interval_cases i <;>
    simp [getElem_bits, getElem_cat, BitVec.getElem_signExtend, BitVec.msb_eq_getLsbD_last]

theorem cluiImm_eq (c : Half) : cluiImm c = upper ((rvcImm6 c).signExtend 20) := by
  ext i hi
  unfold cluiImm upper rvcImm6
  rw [getElem_sext _ _ _ _ (by decide) (by decide), getElem_cat]
  interval_cases i <;>
    simp [getElem_bits, getElem_cat, BitVec.getElem_signExtend, BitVec.msb_eq_getLsbD_last]

theorem cbImm_eq (c : Half) : cbImm c = branchOffset ((rvcB c).signExtend 12) := by
  ext i hi
  unfold cbImm branchOffset rvcB
  rw [getElem_sext _ _ _ _ (by decide) (by decide), BitVec.getElem_signExtend,
    BitVec.msb_eq_getLsbD_last]
  interval_cases i <;>
    simp [getElem_bits, getElem_cat, BitVec.getElem_signExtend, BitVec.msb_eq_getLsbD_last]

theorem signExtend_ne_zero {a b : Nat} {x : BitVec a} (hab : a ≤ b) (h : x ≠ 0#a) :
    x.signExtend b ≠ 0#b := by
  intro hz
  apply h
  ext i hi
  have hb : (x.signExtend b)[i] = false := by simp [hz]
  simpa [BitVec.getElem_signExtend, hi] using hb

theorem upper_ne_zero {imm : BitVec 20} (h : imm ≠ 0#20) : upper imm ≠ 0#32 := by
  intro hz
  apply h
  ext i hi
  have hb : (upper imm)[i + 12] = false := by simp [hz]
  rw [upper, getElem_cat, if_neg (by omega), Nat.add_sub_cancel] at hb
  simpa [BitVec.getLsbD_eq_getElem hi] using hb

/-! ## The decode arms -/

theorem two_bits (f : BitVec 2) : f.toNat = 0 ∨ f.toNat = 1 ∨ f.toNat = 2 ∨ f.toNat = 3 := by
  have := f.isLt
  omega

theorem three_bits (f : BitVec 3) : f = 0#3 ∨ f = 1#3 ∨ f = 2#3 ∨ f = 3#3 ∨ f = 4#3 ∨ f = 5#3 ∨
    f = 6#3 ∨ f = 7#3 := by
  revert f
  decide

theorem decodeMiscAlu_eq {x : Reg → Word} {c : Half} {i : Instr} (hc : expandMiscAlu c = some i) :
    decodeMiscAlu x c = i.action x := by
  unfold expandMiscAlu at hc
  unfold decodeMiscAlu
  rcases two_bits (c.extractLsb' 10 2) with hf | hf | hf | hf
  all_goals simp only [primeReg_eq, ciImm_eq, hf] at hc ⊢
  · split at hc
    · rename_i h12
      cases hc
      rw [shamt_eq h12]
      rfl
    · cases hc
  · split at hc
    · rename_i h12
      cases hc
      rw [shamt_eq h12]
      rfl
    · cases hc
  · cases hc
    rfl
  · split at hc
    · rename_i h12
      have h12' : c.extractLsb' 12 1 ≠ 1#1 := by rw [h12]; decide
      rw [if_neg h12']
      rcases two_bits (c.extractLsb' 5 2) with ho | ho | ho | ho
      all_goals
        simp only [ho] at hc ⊢
        cases hc
        rfl
    · cases hc

/-- `y` reads the registers `x`, except that `x0` may also read as zero. -/
def Reads (x y : Reg → Word) : Prop := ∀ n, y n = x n ∨ n = 0#5 ∧ y n = 0#32

theorem Reads.refl (x : Reg → Word) : Reads x x := fun _ => .inl rfl

/-- Of a register file whose `x0` is zero there is one reading. -/
theorem Reads.eq {x y : Reg → Word} (hy : Reads x y) (hx0 : x 0#5 = 0#32) : y = x := by
  funext n
  rcases hy n with hn | ⟨rfl, hn⟩
  · exact hn
  · rw [hn, hx0]

/-- The reading where `x0` is zero. -/
def zeroed (x : Reg → Word) (n : Reg) : Word := if n = 0#5 then 0#32 else x n

theorem zeroed_ne {x : Reg → Word} {n : Reg} (hn : n ≠ 0#5) : zeroed x n = x n := if_neg hn

theorem reads_zeroed (x : Reg → Word) : Reads x (zeroed x) := by
  intro n
  by_cases hn : n = 0#5
  · exact .inr ⟨hn, if_pos hn⟩
  · exact .inl (zeroed_ne hn)

theorem popular_ne_zero (f : BitVec 3) : popular f ≠ 0#5 := by
  revert f
  decide

theorem decodeJrMvAdd_reads (h : Hooks H) (r : Run H) (pc width inst : Word)
    {c : Half} {i : Instr} (hc : expandJrMvAdd c = some i) :
    ∃ y, Reads r.s.x y ∧ execute h r pc width inst (decodeJrMvAdd r.s.x c) =
      execute h r pc width inst (i.action y) := by
  unfold expandJrMvAdd at hc
  unfold decodeJrMvAdd
  simp only at hc ⊢
  split at hc
  · rename_i h12
    rw [if_pos h12]
    split at hc
    · rename_i h2
      split at hc
      · cases hc
      · cases hc
        rw [if_pos h2]
        exact ⟨r.s.x, .refl _, rfl⟩
    · rename_i h2
      cases hc
      rw [if_neg h2]
      refine ⟨zeroed r.s.x, reads_zeroed _, ?_⟩
      simp only [Instr.action, zeroed_ne h2]
      rfl
  · rename_i h12
    rw [if_neg h12]
    split at hc
    · rename_i h2
      split at hc
      · rename_i hd
        cases hc
        rw [if_pos ⟨hd, h2⟩]
        exact ⟨r.s.x, .refl _, rfl⟩
      · rename_i hd
        cases hc
        rw [if_neg (fun hn => hd hn.1), if_pos h2]
        exact ⟨r.s.x, .refl _, rfl⟩
    · rename_i h2
      cases hc
      rw [if_neg (fun hn => h2 hn.2), if_neg h2]
      exact ⟨r.s.x, .refl _, rfl⟩

/-- **The compressed decode arms run the expansion's action body**, on some reading of the
registers. -/
theorem execute_expand_reads (h : Hooks H) (r : Run H) (pc width inst : Word)
    {c : Half} {i : Instr} (hc : expand c = some i) :
    ∃ y, Reads r.s.x y ∧ execute h r pc width inst (decode16 r.s.x c) =
      execute h r pc width inst (i.action y) := by
  unfold expand at hc
  unfold decode16
  simp only [primeReg_eq, ciImm_eq, addi4spnImm_eq, clwImm_eq, cjImm_eq, addi16spImm_eq,
    cluiImm_eq, cbImm_eq, clwspImm_eq, cswspImm_eq] at hc ⊢
  split at hc
  case h_1 _ _ hq hf =>
    simp only [hq, hf]
    split at hc
    · cases hc
    · rename_i hz
      cases hc
      rw [if_neg (signExtend_ne_zero (by decide) hz)]
      exact ⟨r.s.x, .refl _, rfl⟩
  case h_7 _ _ hq hf =>
    simp only [hq, hf]
    split at hc
    · rename_i hr
      rw [if_pos hr, hr]
      split at hc
      · cases hc
      · rename_i hz
        cases hc
        rw [if_neg (signExtend_ne_zero (by decide) (signExtend_ne_zero (by decide) hz))]
        exact ⟨r.s.x, .refl _, rfl⟩
    · rename_i hr
      rw [if_neg hr]
      split at hc
      · cases hc
      · rename_i hz
        cases hc
        rw [if_neg (upper_ne_zero (signExtend_ne_zero (by decide) hz))]
        exact ⟨r.s.x, .refl _, rfl⟩
  case h_8 _ _ hq hf =>
    simp only [hq, hf]
    rw [decodeMiscAlu_eq hc]
    exact ⟨r.s.x, .refl _, rfl⟩
  case h_12 _ _ hq hf =>
    simp only [hq, hf]
    split at hc
    · rename_i h12
      cases hc
      rw [shamt_eq h12]
      exact ⟨r.s.x, .refl _, rfl⟩
    · cases hc
  case h_13 _ _ hq hf =>
    simp only [hq, hf]
    split at hc
    · cases hc
    · cases hc
      exact ⟨r.s.x, .refl _, rfl⟩
  case h_14 _ _ hq hf =>
    simp only [hq, hf]
    exact decodeJrMvAdd_reads h r pc width inst hc
  case h_16 => cases hc
  -- the source leaves `a` or `b` at 0 where the expansion names x0
  case h_6 _ _ hq hf =>
    simp only [hq, hf]
    cases hc
    exact ⟨zeroed r.s.x, reads_zeroed _, rfl⟩
  case h_10 _ _ hq hf | h_11 _ _ hq hf =>
    simp only [hq, hf]
    cases hc
    refine ⟨zeroed r.s.x, reads_zeroed _, ?_⟩
    simp only [Instr.action, zeroed_ne (popular_ne_zero _)]
    rfl
  all_goals
    rename_i hq hf
    simp only [hq, hf]
    cases hc
    exact ⟨r.s.x, .refl _, rfl⟩

/-- With `x0` at zero, on the registers. -/
theorem execute_expand (h : Hooks H) {r : Run H} (hx0 : r.s.x 0#5 = 0#32) (pc width inst : Word)
    {c : Half} {i : Instr} (hc : expand c = some i) :
    execute h r pc width inst (decode16 r.s.x c) = execute h r pc width inst (i.action r.s.x) := by
  obtain ⟨y, hy, he⟩ := execute_expand_reads h r pc width inst hc
  rw [he, hy.eq hx0]

theorem expand_low {c : Half} {i : Instr} (hc : expand c = some i) :
    c.extractLsb' 0 2 ≠ 3#2 := by
  intro hlow
  unfold expand at hc
  simp only [hlow] at hc
  cases hc

theorem Unimplemented.low {c : Half} (hc : Unimplemented c) : c.extractLsb' 0 2 ≠ 3#2 := by
  cases hc with
  | zero h => rw [h]; decide
  | addi4spn hq _ _ => rw [hq]; decide
  | addi16sp hq _ _ _ => rw [hq]; decide
  | lui hq _ _ _ => rw [hq]; decide
  | rv64 hq _ _ _ => rw [hq]; decide
  | float hq _ => rcases hq with hq | hq <;> rw [hq] <;> decide

/-- **The forms to refuse all reach `illegal`.** -/
theorem decode16_unimplemented {c : Half} (hc : Unimplemented c) (x : Reg → Word) :
    decode16 x c = .illegal := by
  cases hc with
  | zero h => rw [h]; rfl
  | addi4spn hq hf hz =>
    unfold decode16
    simp only [hq, hf, addi4spnImm_eq, hz]
    rfl
  | addi16sp hq hf hr hz =>
    unfold decode16
    simp only [hq, hf, hr, addi16spImm_eq, hz]
    rfl
  | lui hq hf hr hz =>
    unfold decode16
    simp only [hq, hf, cluiImm_eq, hz]
    exact (if_neg hr).trans (if_pos rfl)
  | rv64 hq hf ho hw =>
    unfold decode16
    simp only [hq, hf]
    show decodeMiscAlu x c = _
    unfold decodeMiscAlu
    simp only [ho, hw]
    rfl
  | float hq hf =>
    unfold decode16
    rcases hq with hq | hq <;> rcases hf with hf | hf | hf | hf <;> simp only [hq, hf] <;> rfl

/-! ## One iteration of the loop -/

/-- The bytes of `c` lie at offset `off` of a buffer. -/
def HalfAt (code : Nat → Byte) (off : Nat) (c : Half) : Prop :=
  code off = c.extractLsb' 0 8 ∧ code (off + 1) = c.extractLsb' 8 8

theorem fetch_half {code : Nat → Byte} {pc : Word} {c : Half} (hpc : pc.toNat + 2 < 2 ^ 32)
    (hc : HalfAt code pc.toNat c) (hlow : c.extractLsb' 0 2 ≠ 3#2) : fetch code pc = .half c := by
  have h1 : (pc + 1#32).toNat = pc.toNat + 1 := by
    rw [BitVec.toNat_add_of_lt (by simp; omega)]
    rfl
  have hlo : fetchHalf code pc = c := by
    unfold fetchHalf
    rw [h1, hc.1, hc.2]
    ext j hj
    have hw : c.getLsbD j = _ := BitVec.getLsbD_eq_getElem hj
    by_cases h : j < 8
    · simp [h, hw]
    · simp [h, show j - 8 < 8 by omega, show 8 + (j - 8) = j by omega, hw]
  unfold fetch
  simp only [hlo, if_neg hlow]

/-- One iteration on the 32-bit instruction `w`, if it had been fetched as `width` bytes whose raw
form is `inst`. -/
def iterateAs (h : Hooks H) (r : Run H) (width inst w : Word) : Result H :=
  landed r.s.pc width (execute h r r.s.pc width inst (decode32 r.s.x w))

/-- A fetched halfword runs its decode arm. -/
theorem riscvEmulatorLoop_half (h : Hooks H) (r : Run H) (c : Half)
    (hptr : r.s.readonly.ptr ≠ 0) (hlen : r.s.pc.toNat + 2 ≤ r.s.readonly.len.toNat)
    (hc : HalfAt (r.s.mem r.s.readonly.ptr) r.s.pc.toNat c) (hlow : c.extractLsb' 0 2 ≠ 3#2) :
    riscvEmulatorLoop h r 1 =
      landed r.s.pc 2#32 (execute h r r.s.pc 2#32 (c.setWidth 32) (decode16 r.s.x c)) := by
  have hfetch := fetch_half (by have := r.s.readonly.len.isLt; omega) hc hlow
  have hf : Fetchable (r.s.mem r.s.readonly.ptr) (r.s.readonly.ptr == 0) r.s.readonly.len
      r.s.pc := by
    refine ⟨beq_false_of_ne hptr, hlen, fun h3 => ?_⟩
    unfold fetch at hfetch
    rw [if_pos h3] at hfetch
    cases hfetch
  rw [riscvEmulatorLoop_one h r hf, hfetch]
  rfl

/-- The instruction writes a link. -/
def Isa.Instr.links : Instr → Bool
  | .jal rd _ => rd != 0#5
  | .jalr rd _ _ => rd != 0#5
  | _ => false

/-- The instruction calls a handler. -/
def Isa.Instr.traps : Instr → Bool
  | .ecall | .ebreak => true
  | _ => false

/-- The width shows in a link only, and the raw form in a handler only. -/
theorem execute_as (h : Hooks H) (r : Run H) (pc width width' inst inst' : Word) {i : Instr}
    (hl : i.links = false) (ht : i.traps = false) :
    execute h r pc width inst (i.action r.s.x) = execute h r pc width' inst' (i.action r.s.x) := by
  cases i with
  | jal rd off =>
    simp only [Instr.links, bne_eq_false_iff_eq] at hl
    simp only [Instr.action, execute, hl, Run.wr, wr_zero]
  | jalr rd rs1 imm =>
    simp only [Instr.links, bne_eq_false_iff_eq] at hl
    simp only [Instr.action, execute, hl, Run.wr, wr_zero]
  | branch k rs1 rs2 off =>
    simp only [Instr.action, execute, branchTaken_eval]
    cases k.eval (r.s.x rs1) (r.s.x rs2) <;> rfl
  | load k rd rs1 imm =>
    have hk : ¬ (k.funct3 = 3#3 ∨ k.funct3 > 5#3) := by cases k <;> decide
    simp only [Instr.action, execute, if_neg hk]
  | store k rs1 rs2 imm =>
    have hk : ¬ k.funct3 > 2#3 := by cases k <;> decide
    simp only [Instr.action, execute, if_neg hk]
  | ecall => cases ht
  | ebreak => cases ht
  | _ => rfl

/-- **A compressed instruction is its expansion**, fetched as two bytes: the same run up to the
link and to the raw form a handler sees.  A form that is not implemented is one call of the illegal
handler. -/
theorem riscvEmulatorLoop_compressed (h : Hooks H) (r : Run H) (c : Half)
    (hptr : r.s.readonly.ptr ≠ 0) (hlen : r.s.pc.toNat + 2 ≤ r.s.readonly.len.toNat)
    (hc : HalfAt (r.s.mem r.s.readonly.ptr) r.s.pc.toNat c) :
    (∀ i, expand c = some i → r.s.x 0#5 = 0#32 →
      riscvEmulatorLoop h r 1 = iterateAs h r 2#32 (c.setWidth 32) (encode i) ∧
      (i.links = false → i.traps = false →
        oneInsn h r r.s.pc (.half c) = oneInsn h r r.s.pc (.word (encode i)))) ∧
    (Unimplemented c →
      riscvEmulatorLoop h r 1 =
        landed r.s.pc 2#32 (r.raise h r.s.pc (c.setWidth 32) .illegal)) := by
  constructor
  · intro i hi hx0
    have he := execute_expand h hx0 r.s.pc 2#32 (c.setWidth 32) hi
    constructor
    · rw [riscvEmulatorLoop_half h r c hptr hlen hc (expand_low hi), he, ← decode32_encode]
      rfl
    · intro hl ht
      simp only [oneInsn, Insn.width, Insn.inst, Insn.decode, decode32_encode]
      exact he.trans (execute_as h r r.s.pc _ _ _ _ hl ht)
  · intro hu
    rw [riscvEmulatorLoop_half h r c hptr hlen hc hu.low, decode16_unimplemented hu]
    rfl

/-- `C.LI x1, 0` and the all-zero halfword. -/
theorem riscvEmulatorLoop_compressed_li :
    (riscvEmulatorLoop Hooks.null ⟨State.boot [0x81, 0x40] 0, []⟩ 1).r.s.x 1#5 = 0#32 ∧
      (riscvEmulatorLoop Hooks.null ⟨State.boot [0x00, 0x00] 0, []⟩ 1).stop = .trap := by
  rw [((riscvEmulatorLoop_compressed Hooks.null ⟨State.boot [0x81, 0x40] 0, []⟩ 0x4081#16
      (by decide) (by decide) (by unfold HalfAt; decide)).1
      (.opImm .addi 1#5 0#5 0#12) (by decide) rfl).1,
    (riscvEmulatorLoop_compressed Hooks.null ⟨State.boot [0x00, 0x00] 0, []⟩ 0#16
      (by decide) (by decide) (by unfold HalfAt; decide)).2 (.zero rfl)]
  decide

/-- With a host that put 1 in `x[0]`, `C.LI x1, 0` writes 0 where `ADDI x1, x0, 0` writes 1. -/
theorem expand_needs_zero :
    let r : Run Unit := ⟨(State.boot [0x81, 0x40] 0).setX 0#5 1#32, []⟩
    expand 0x4081#16 = some (.opImm .addi 1#5 0#5 0#12) ∧
      (riscvEmulatorLoop Hooks.null r 1).r.s.x 1#5 = 0#32 ∧
      (iterateAs Hooks.null r 2#32 0x4081#32 (encode (.opImm .addi 1#5 0#5 0#12))).r.s.x 1#5 =
        1#32 := by
  decide

/-! ## Defined encodings -/

/-- An action body that only calls the illegal handler. -/
def Action.refused : Action → Bool
  | .load _ _ _ f3 => f3 == 3#3 || decide (f3 > 5#3)
  | .store _ _ _ f3 => decide (f3 > 2#3)
  | .branch a b _ f3 => (branchTaken a b f3).isNone
  | .system rd rs1 f3 imm =>
    !(f3 == 0#3 && rd == 0#5 && rs1 == 0#5 && (imm == 0#32 || imm == 1#32))
  | .illegal => true
  | _ => false

/-- A defined RV32IMC or Zifencei encoding, or one that the interpreter refuses. -/
def Insn.Defined : Insn → Prop
  | .word w => (∃ i, w = encode i) ∨ ∀ x, (decode32 x w).refused = true
  | .half c => (∃ i, expand c = some i) ∨ ∀ x, (decode16 x c).refused = true

end Purv
