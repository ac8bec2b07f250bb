import Purv.Purvs
import Purv.Rvc

/-!
# What a decoded record means

* `Pair.next` — what the run loop of `purvs` makes of a record, in the terms of the interpreter:
  the handler for an op that falls through, a `Next` for a jump, a branch or a trap;
* `Quirk` — the words that the two engines do not read alike: `funct7 = 0x20` with a `funct3` that
  has no such form;
* `next_decodeOne` — for every other instruction the record and the interpreter's action body do
  the same, whatever the two slots held before.
-/

namespace Purv.Purvs

open Bits Isa

variable {H : Type}

/-- The condition of a branch op. -/
def taken (op : Nat) (a b : Word) : Bool :=
  match op with
  | RISCV_OP_BEQ => a == b
  | RISCV_OP_BNE => a != b
  | RISCV_OP_BLT => a.slt b
  | RISCV_OP_BGE => !a.slt b
  | RISCV_OP_BLTU => a.ult b
  | _ => !a.ult b

/-- `BEQ .. BGEU`. -/
def isBranch (op : Nat) : Bool := RISCV_OP_BEQ ≤ op && op ≤ RISCV_OP_BGEU

/-- The record of an instruction at `pc`, as the run loop and the evaluator treat it. -/
def Pair.next (h : Hooks H) (r : Run H) (pc width : Word) (d : Pair) : Run H × Next :=
  let op := d.head.op.toNat
  let a := r.s.x (regOf d.head.rs1)
  let b := r.s.x (regOf d.head.rs2)
  let rd := regOf d.head.rd
  if op = RISCV_OP_JAL then (r.wr rd (pc + width), .jump d.tail.imm)
  else if op = RISCV_OP_JALR then (r.wr rd (pc + width), .jump ((a + d.tail.imm) &&& ~~~1#32))
  else if isTrap op then r.raise h pc d.tail.imm (trapOf op)
  else if isBranch op then (r, if taken op a b then .jump d.tail.imm else .done)
  else ((handler h r d.head d.tail.imm).1, .done)

/-- An OP word with `funct7 = 0x20` that is neither `SUB` nor `SRA`. -/
def Quirk (w : Word) : Prop :=
  (w.extractLsb' 0 7).toNat = OP ∧ w.extractLsb' 25 7 = 0x20#7 ∧
    w.extractLsb' 12 3 ≠ 0#3 ∧ w.extractLsb' 12 3 ≠ 5#3

/-! ## One op at a time -/

section
variable (h : Hooks H) (r : Run H) (pc width raw : Word) (d : Pair)

theorem next_aluImm (f3 : BitVec 3) (hop : d.head.op = opByte (RISCV_OP_ADDI + f3.toNat)) :
    (d.fixup raw).next h r pc width =
      (r.wr (regOf d.head.rd) (alu (r.s.x (regOf d.head.rs1)) d.tail.imm f3 0#7), .done) := by
  obtain ⟨⟨op, rd, rs1, rs2⟩, tail⟩ := d
  cases hop
  rcases three_bits f3 with hf | hf | hf | hf | hf | hf | hf | hf <;> subst hf <;> rfl

theorem next_srai (hop : d.head.op = opByte RISCV_OP_SRAI) :
    (d.fixup raw).next h r pc width =
      (r.wr (regOf d.head.rd) (alu (r.s.x (regOf d.head.rs1)) d.tail.imm 5#3 0x20#7), .done) := by
  obtain ⟨⟨op, rd, rs1, rs2⟩, tail⟩ := d
  cases hop
  rfl

theorem next_aluReg (f3 : BitVec 3) {f7 : BitVec 7} (hf7 : f7 ≠ 0x20#7)
    (hop : d.head.op = opByte (RISCV_OP_ADD + f3.toNat)) :
    (d.fixup raw).next h r pc width =
      (r.wr (regOf d.head.rd)
        (alu (r.s.x (regOf d.head.rs1)) (r.s.x (regOf d.head.rs2)) f3 f7), .done) := by
  obtain ⟨⟨op, rd, rs1, rs2⟩, tail⟩ := d
  cases hop
  unfold alu
  simp only [if_neg hf7]
  rcases three_bits f3 with hf | hf | hf | hf | hf | hf | hf | hf <;> subst hf <;> rfl

theorem next_sub (hop : d.head.op = opByte RISCV_OP_SUB) :
    (d.fixup raw).next h r pc width =
      (r.wr (regOf d.head.rd)
        (alu (r.s.x (regOf d.head.rs1)) (r.s.x (regOf d.head.rs2)) 0#3 0x20#7), .done) := by
  obtain ⟨⟨op, rd, rs1, rs2⟩, tail⟩ := d
  cases hop
  rfl

theorem next_sra (hop : d.head.op = opByte RISCV_OP_SRA) :
    (d.fixup raw).next h r pc width =
      (r.wr (regOf d.head.rd)
        (alu (r.s.x (regOf d.head.rs1)) (r.s.x (regOf d.head.rs2)) 5#3 0x20#7), .done) := by
  obtain ⟨⟨op, rd, rs1, rs2⟩, tail⟩ := d
  cases hop
  rfl

theorem next_mul (f3 : BitVec 3) (hop : d.head.op = opByte (RISCV_OP_MUL + f3.toNat)) :
    (d.fixup raw).next h r pc width =
      (r.wr (regOf d.head.rd)
        (mul (r.s.x (regOf d.head.rs1)) (r.s.x (regOf d.head.rs2)) f3), .done) := by
  obtain ⟨⟨op, rd, rs1, rs2⟩, tail⟩ := d
  cases hop
  rcases three_bits f3 with hf | hf | hf | hf | hf | hf | hf | hf <;> subst hf <;> rfl

theorem next_load (f3 : BitVec 3) (hop : d.head.op = opByte (loadOp f3))
    (hf3 : ¬ (f3 = 3#3 ∨ f3 > 5#3)) :
    (d.fixup raw).next h r pc width =
      (execLoad h r (regOf d.head.rd) (r.s.x (regOf d.head.rs1) + d.tail.imm) f3, .done) := by
  obtain ⟨⟨op, rd, rs1, rs2⟩, tail⟩ := d
  cases hop
  rcases three_bits f3 with hf | hf | hf | hf | hf | hf | hf | hf <;> subst hf
  case inr.inr.inr.inl => exact absurd (by decide) hf3
  case inr.inr.inr.inr.inr.inr.inl => exact absurd (by decide) hf3
  case inr.inr.inr.inr.inr.inr.inr => exact absurd (by decide) hf3
  all_goals rfl

theorem next_store (f3 : BitVec 3) (hop : d.head.op = opByte (storeOp f3)) (hf3 : ¬ f3 > 2#3) :
    (d.fixup raw).next h r pc width =
      (execStore h r (r.s.x (regOf d.head.rs1) + d.tail.imm) (r.s.x (regOf d.head.rs2)) f3,
        .done) := by
  obtain ⟨⟨op, rd, rs1, rs2⟩, tail⟩ := d
  cases hop
  rcases three_bits f3 with hf | hf | hf | hf | hf | hf | hf | hf <;> subst hf
  case inl => rfl
  case inr.inl => rfl
  case inr.inr.inl => rfl
  all_goals exact absurd (by decide) hf3

theorem next_branch (f3 : BitVec 3) (hop : d.head.op = opByte (branchOp f3)) (t : Bool)
    (ht : branchTaken (r.s.x (regOf d.head.rs1)) (r.s.x (regOf d.head.rs2)) f3 = some t) :
    (d.fixup raw).next h r pc width = (r, if t then .jump d.tail.imm else .done) := by
  obtain ⟨⟨op, rd, rs1, rs2⟩, tail⟩ := d
  cases hop
  rcases three_bits f3 with hf | hf | hf | hf | hf | hf | hf | hf <;> subst hf <;> cases ht <;> rfl

theorem next_jal (hop : d.head.op = opByte RISCV_OP_JAL) :
    (d.fixup raw).next h r pc width = (r.wr (regOf d.head.rd) (pc + width), .jump d.tail.imm) := by
  obtain ⟨⟨op, rd, rs1, rs2⟩, tail⟩ := d
  cases hop
  rfl

theorem next_jalr (hop : d.head.op = opByte RISCV_OP_JALR) :
    (d.fixup raw).next h r pc width = (r.wr (regOf d.head.rd) (pc + width),
      .jump ((r.s.x (regOf d.head.rs1) + d.tail.imm) &&& ~~~1#32)) := by
  obtain ⟨⟨op, rd, rs1, rs2⟩, tail⟩ := d
  cases hop
  rfl

theorem next_lui (hop : d.head.op = opByte RISCV_OP_LUI) :
    (d.fixup raw).next h r pc width = (r.wr (regOf d.head.rd) d.tail.imm, .done) := by
  obtain ⟨⟨op, rd, rs1, rs2⟩, tail⟩ := d
  cases hop
  rfl

theorem next_nop (hop : d.head.op = opByte RISCV_OP_NOP) :
    (d.fixup raw).next h r pc width = (r, .done) := by
  obtain ⟨⟨op, rd, rs1, rs2⟩, tail⟩ := d
  cases hop
  rfl

theorem next_ecall (hop : d.head.op = opByte RISCV_OP_ECALL) :
    (d.fixup raw).next h r pc width = r.raise h pc raw .ecall := by
  have hf : d.fixup raw = d.imm raw := if_pos (by rw [hop]; rfl)
  rw [hf]
  unfold Pair.next
  simp only [imm_head, imm_tail, hop]
  rfl

theorem next_ebreak (hop : d.head.op = opByte RISCV_OP_EBREAK) :
    (d.fixup raw).next h r pc width = r.raise h pc raw .ebreak := by
  have hf : d.fixup raw = d.imm raw := if_pos (by rw [hop]; rfl)
  rw [hf]
  unfold Pair.next
  simp only [imm_head, imm_tail, hop]
  rfl

theorem next_illegal (hop : d.head.op = opByte RISCV_OP_ILLEGAL) :
    (d.fixup raw).next h r pc width = r.raise h pc raw .illegal := by
  have hf : d.fixup raw = d.imm raw := if_pos (by rw [hop]; rfl)
  rw [hf]
  unfold Pair.next
  simp only [imm_head, imm_tail, hop]
  rfl

end

/-! ## The decode arms -/

theorem loadOp_illegal {f3 : BitVec 3} (hf : f3 = 3#3 ∨ f3 > 5#3) :
    loadOp f3 = RISCV_OP_ILLEGAL := by
  revert hf
  rcases three_bits f3 with hf | hf | hf | hf | hf | hf | hf | hf <;> subst hf <;> decide

theorem storeOp_illegal {f3 : BitVec 3} (hf : f3 > 2#3) : storeOp f3 = RISCV_OP_ILLEGAL := by
  revert hf
  rcases three_bits f3 with hf | hf | hf | hf | hf | hf | hf | hf <;> subst hf <;> decide

theorem branchOp_illegal {f3 : BitVec 3} {a b : Word} (hf : branchTaken a b f3 = none) :
    branchOp f3 = RISCV_OP_ILLEGAL := by
  revert hf
  rcases three_bits f3 with hf | hf | hf | hf | hf | hf | hf | hf <;> subst hf <;>
    simp [branchTaken, branchOp]

/-- `funct7` chooses between `SRLI` and `SRAI` only. -/
theorem alu_not_sra {f3 : BitVec 3} {f7 : BitVec 7} (hsh : f3 = 1#3 ∨ f3 = 5#3)
    (hsra : ¬ (f3 = 5#3 ∧ f7 = 0x20#7)) {a b : Word} : alu a b f3 f7 = alu a b f3 0#7 := by
  rcases hsh with hf | hf
  · subst hf
    rfl
  · subst hf
    have h7 : f7 ≠ 0x20#7 := fun h7 => hsra ⟨rfl, h7⟩
    unfold alu
    simp only [if_neg h7]
    rfl

theorem next_opimm (h : Hooks H) (r : Run H) (off : Word) (d : Pair) {w : Word}
    (hk : (w.extractLsb' 0 7).toNat = OPIMM) :
    (decodeOne d (.word w) off).next h r off 4#32 = execute h r off 4#32 w (decode32 r.s.x w) := by
  unfold OPIMM at hk
  simp only [decodeOne, lower, lower32, decode32, hk]
  generalize hf : w.extractLsb' 12 3 = f3
  by_cases hsh : f3 = 1#3 ∨ f3 = 5#3
  · simp only [if_pos hsh]
    by_cases hsra : f3 = 5#3 ∧ w.extractLsb' 25 7 = 0x20#7
    · rw [if_pos hsra, next_srai _ _ _ _ _ _ rfl]
      simp only [op_head, rs1_head, rd_head, imm_head, op_tail, imm_tail, regOf_regByte, hsra]
      rfl
    · rw [if_neg hsra, next_aluImm _ _ _ _ _ _ f3 rfl]
      simp only [op_head, rs1_head, rd_head, imm_head, op_tail, imm_tail, regOf_regByte]
      rw [← alu_not_sra hsh hsra]
      rfl
  · simp only [if_neg hsh]
    rw [next_aluImm _ _ _ _ _ _ f3 rfl]
    simp only [op_head, rs1_head, rd_head, imm_head, op_tail, imm_tail, regOf_regByte]
    rfl

theorem next_op (h : Hooks H) (r : Run H) (off : Word) (d : Pair) {w : Word}
    (hk : (w.extractLsb' 0 7).toNat = OP) (hq : ¬ Quirk w) :
    (decodeOne d (.word w) off).next h r off 4#32 = execute h r off 4#32 w (decode32 r.s.x w) := by
  have hf3 : w.extractLsb' 25 7 = 0x20#7 → w.extractLsb' 12 3 ≠ 0#3 → w.extractLsb' 12 3 = 5#3 :=
    fun h7 h0 => Classical.byContradiction fun h5 => hq ⟨hk, h7, h0, h5⟩
  unfold OP at hk
  simp only [decodeOne, lower, lower32, decode32, hk, Insn.inst]
  generalize w.extractLsb' 12 3 = f3 at hf3 ⊢
  by_cases hm : w.extractLsb' 25 7 = 1#7
  · rw [if_pos hm, if_pos hm, next_mul _ _ _ _ _ _ f3 rfl]
    simp only [op_head, rs1_head, rd_head, rs2_head, regOf_regByte]
    rfl
  · rw [if_neg hm, if_neg hm]
    by_cases h20 : w.extractLsb' 25 7 = 0x20#7
    · rw [if_pos h20]
      by_cases h0 : f3 = 0#3
      · rw [if_pos h0, next_sub _ _ _ _ _ _ rfl, h0, h20]
        simp only [op_head, rs1_head, rd_head, rs2_head, regOf_regByte]
        rfl
      · rw [if_neg h0, next_sra _ _ _ _ _ _ rfl, hf3 h20 h0, h20]
        simp only [op_head, rs1_head, rd_head, rs2_head, regOf_regByte]
        rfl
    · rw [if_neg h20, next_aluReg _ _ _ _ _ _ f3 h20 rfl]
      simp only [op_head, rs1_head, rd_head, rs2_head, regOf_regByte]
      rfl

theorem next_system (h : Hooks H) (r : Run H) (off : Word) (d : Pair) {w : Word}
    (hk : (w.extractLsb' 0 7).toNat = SYSTEM) :
    (decodeOne d (.word w) off).next h r off 4#32 = execute h r off 4#32 w (decode32 r.s.x w) := by
  unfold SYSTEM at hk
  simp only [decodeOne, lower, lower32, decode32, hk, Insn.inst, execute]
  split
  · rw [next_ecall _ _ _ _ _ _ rfl]
  · split
    · rw [next_ebreak _ _ _ _ _ _ rfl]
    · rw [next_illegal _ _ _ _ _ _ rfl]

/-- **A 32-bit record does what the interpreter does.** -/
theorem next_lower32 (h : Hooks H) (r : Run H) (off : Word) (d : Pair) {w : Word}
    (hq : ¬ Quirk w) :
    (decodeOne d (.word w) off).next h r off 4#32 = execute h r off 4#32 w (decode32 r.s.x w) := by
  have hdec : decode32 r.s.x w = decode32 r.s.x w := rfl
  conv at hdec => rhs; unfold decode32
  split at hdec
  case h_1 _ hk => exact next_opimm h r off d hk
  case h_2 _ hk => exact next_op h r off d hk hq
  case h_3 _ hk =>
    rw [hdec]
    simp only [decodeOne, lower, lower32, hk, Insn.inst, execute]
    split
    · rename_i hf
      rw [next_illegal _ _ _ _ _ _ (by rw [imm_head, op_head, loadOp_illegal hf])]
    · rename_i hf
      rw [next_load _ _ _ _ _ _ _ rfl hf]
      simp only [op_head, rs1_head, rd_head, imm_head, imm_tail, regOf_regByte]
  case h_4 _ hk =>
    rw [hdec]
    simp only [decodeOne, lower, lower32, hk, Insn.inst, execute]
    split
    · rename_i hf
      rw [next_illegal _ _ _ _ _ _ (by rw [imm_head, rs2_head, op_head, storeOp_illegal hf])]
    · rename_i hf
      rw [next_store _ _ _ _ _ _ _ rfl hf]
      simp only [op_head, rs1_head, rd_head, rs2_head, imm_head, imm_tail, regOf_regByte]
  case h_5 _ hk =>
    rw [hdec]
    simp only [decodeOne, lower, lower32, hk, Insn.inst, execute]
    have hb := next_branch h r off 4#32 w
      ((((((d.rd (w.extractLsb' 7 5)).rs1 (w.extractLsb' 15 5)).op
        (branchOp (w.extractLsb' 12 3))).rs2 (w.extractLsb' 20 5)).imm (off + branchImm w)))
      (w.extractLsb' 12 3) rfl
    simp only [op_head, rs1_head, rd_head, rs2_head, imm_head, imm_tail, regOf_regByte] at hb
    split
    · rename_i ht
      rw [next_illegal _ _ _ _ _ _ (by rw [imm_head, rs2_head, op_head, branchOp_illegal ht])]
    · rename_i ht
      rw [hb _ ht]
      rfl
    · rename_i ht
      rw [hb _ ht]
      rfl
  case h_6 _ hk =>
    rw [hdec]
    simp only [decodeOne, lower, lower32, hk, Insn.inst, execute]
    rw [next_jal _ _ _ _ _ _ rfl]
    simp only [op_head, rs1_head, rd_head, imm_head, imm_tail, regOf_regByte]
  case h_7 _ hk =>
    rw [hdec]
    simp only [decodeOne, lower, lower32, hk, Insn.inst, execute]
    rw [next_jalr _ _ _ _ _ _ rfl]
    simp only [op_head, rs1_head, rd_head, imm_head, imm_tail, regOf_regByte]
  case h_8 _ hk =>
    rw [hdec]
    simp only [decodeOne, lower, lower32, hk, Insn.inst, execute]
    rw [next_lui _ _ _ _ _ _ rfl]
    simp only [op_head, rs1_head, rd_head, imm_head, imm_tail, regOf_regByte]
  case h_9 _ hk =>
    rw [hdec]
    simp only [decodeOne, lower, lower32, hk, Insn.inst, execute]
    rw [next_lui _ _ _ _ _ _ rfl]
    simp only [op_head, rs1_head, rd_head, imm_head, imm_tail, regOf_regByte]
  case h_10 _ hk =>
    rw [hdec]
    simp only [decodeOne, lower, lower32, hk, Insn.inst]
    split
    · rw [next_illegal _ _ _ _ _ _ rfl]
      rfl
    · rw [next_nop _ _ _ _ _ _ rfl]
      rfl
  case h_11 _ hk => exact next_system h r off d hk
  case h_12 =>
    rw [hdec]
    simp only [decodeOne, lower, Insn.inst, execute]
    rw [next_illegal _ _ _ _ _ _ (by unfold lower32; simp only; rfl)]

/-! ## The compressed arms -/

theorem next_miscAlu (h : Hooks H) (r : Run H) (off : Word) (d : Pair) (c : Half) :
    ((lowerMiscAlu d c).fixup (c.setWidth 32)).next h r off 2#32 =
      execute h r off 2#32 (c.setWidth 32) (decodeMiscAlu r.s.x c) := by
  unfold lowerMiscAlu decodeMiscAlu
  rcases two_bits (c.extractLsb' 10 2) with hf | hf | hf | hf
  all_goals simp only [hf, execute]
  · rw [next_aluImm _ _ _ _ _ _ 5#3 rfl]
    simp only [op_head, rs1_head, rd_head, imm_head, imm_tail, regOf_regByte]
  · rw [next_srai _ _ _ _ _ _ rfl]
    simp only [op_head, rs1_head, rd_head, imm_head, imm_tail, regOf_regByte]
  · rw [next_aluImm _ _ _ _ _ _ 7#3 rfl]
    simp only [op_head, rs1_head, rd_head, imm_head, imm_tail, regOf_regByte]
  · split
    · rw [next_illegal _ _ _ _ _ _ rfl]
    · rcases two_bits (c.extractLsb' 5 2) with ho | ho | ho | ho
      all_goals simp only [ho]
      · rw [next_sub _ _ _ _ _ _ rfl]
        simp only [op_head, rs1_head, rd_head, rs2_head, regOf_regByte]
      · rw [next_aluReg _ _ _ _ _ _ 4#3 (by decide : 0#7 ≠ 0x20#7) rfl]
        simp only [op_head, rs1_head, rd_head, rs2_head, regOf_regByte]
      · rw [next_aluReg _ _ _ _ _ _ 6#3 (by decide : 0#7 ≠ 0x20#7) rfl]
        simp only [op_head, rs1_head, rd_head, rs2_head, regOf_regByte]
      · rw [next_aluReg _ _ _ _ _ _ 7#3 (by decide : 0#7 ≠ 0x20#7) rfl]
        simp only [op_head, rs1_head, rd_head, rs2_head, regOf_regByte]

theorem next_jrMvAdd (h : Hooks H) {r : Run H} (hx0 : r.s.x 0#5 = 0#32) (off : Word) (d : Pair)
    (c : Half) :
    ((lowerJrMvAdd (d.rd (c.extractLsb' 7 5)) c).fixup (c.setWidth 32)).next h r off 2#32 =
      execute h r off 2#32 (c.setWidth 32) (decodeJrMvAdd r.s.x c) := by
  unfold lowerJrMvAdd decodeJrMvAdd
  simp only
  split
  · split
    · rw [next_jalr _ _ _ _ _ _ rfl]
      simp only [op_head, rs1_head, rd_head, imm_head, imm_tail, regOf_regByte]
      rfl
    · rw [next_aluReg _ _ _ _ _ _ 0#3 (by decide : 0#7 ≠ 0x20#7) rfl]
      simp only [op_head, rs1_head, rd_head, rs2_head, regOf_regByte, hx0]
      rfl
  · split
    · rw [next_ebreak _ _ _ _ _ _ rfl]
      rfl
    · split
      · rw [next_jalr _ _ _ _ _ _ rfl]
        simp only [op_head, rs1_head, rd_head, imm_head, imm_tail, regOf_regByte]
        rfl
      · rw [next_aluReg _ _ _ _ _ _ 0#3 (by decide : 0#7 ≠ 0x20#7) rfl]
        simp only [op_head, rs1_head, rd_head, rs2_head, regOf_regByte]
        rfl

/-- **A compressed record does what the interpreter does.** -/
theorem next_lower16 (h : Hooks H) {r : Run H} (hx0 : r.s.x 0#5 = 0#32) (off : Word) (d : Pair)
    (c : Half) :
    (decodeOne d (.half c) off).next h r off 2#32 =
      execute h r off 2#32 (c.setWidth 32) (decode16 r.s.x c) := by
  have hdec : decode16 r.s.x c = decode16 r.s.x c := rfl
  conv at hdec => rhs; unfold decode16
  split at hdec
  case h_1 _ hk =>
    rw [hdec]
    simp only [decodeOne, lower, lower16, hk, Insn.inst]
    by_cases hz : addi4spnImm c = 0#32
    · rw [if_pos hz, if_pos hz, next_illegal _ _ _ _ _ _ rfl]
      rfl
    · rw [if_neg hz, if_neg hz, next_aluImm _ _ _ _ _ _ 0#3 rfl]
      simp only [op_head, rs1_head, rd_head, imm_head, imm_tail, regOf_regByte]
      rfl
  case h_2 _ hk =>
    rw [hdec]
    simp only [decodeOne, lower, lower16, hk, Insn.inst]
    rw [next_load _ _ _ _ _ _ 2#3 rfl (by decide)]
    simp only [op_head, rs1_head, rd_head, imm_head, imm_tail, regOf_regByte]
    rfl
  case h_3 _ hk =>
    rw [hdec]
    simp only [decodeOne, lower, lower16, hk, Insn.inst]
    rw [next_store _ _ _ _ _ _ 2#3 rfl (by decide)]
    simp only [op_head, rs1_head, rd_head, rs2_head, imm_head, imm_tail, regOf_regByte]
    rfl
  case h_4 _ hk =>
    rw [hdec]
    simp only [decodeOne, lower, lower16, hk, Insn.inst]
    rw [next_aluImm _ _ _ _ _ _ 0#3 rfl]
    simp only [op_head, rs1_head, rd_head, imm_head, imm_tail, regOf_regByte]
    rfl
  case h_5 _ hk =>
    rw [hdec]
    simp only [decodeOne, lower, lower16, hk, Insn.inst]
    rw [next_jal _ _ _ _ _ _ rfl]
    simp only [op_head, rd_head, imm_head, imm_tail, regOf_regByte]
    rfl
  case h_6 _ hk =>
    rw [hdec]
    simp only [decodeOne, lower, lower16, hk, Insn.inst]
    rw [next_jal _ _ _ _ _ _ rfl]
    simp only [op_head, rd_head, imm_head, imm_tail, regOf_regByte]
    rfl
  case h_7 _ hk =>
    rw [hdec]
    simp only [decodeOne, lower, lower16, hk, Insn.inst]
    rw [next_aluImm _ _ _ _ _ _ 0#3 rfl]
    simp only [op_head, rs1_head, rd_head, imm_head, imm_tail, regOf_regByte, hx0]
    rfl
  case h_8 _ hk =>
    rw [hdec]
    simp only [decodeOne, lower, lower16, hk, Insn.inst]
    by_cases hr : (c.extractLsb' 7 5 : Reg) = 2#5
    · rw [if_pos hr, if_pos hr]
      by_cases hz : addi16spImm c = 0#32
      · rw [if_pos hz, if_pos hz, next_illegal _ _ _ _ _ _ rfl]
        rfl
      · rw [if_neg hz, if_neg hz, next_aluImm _ _ _ _ _ _ 0#3 rfl]
        simp only [op_head, rs1_head, rd_head, imm_head, imm_tail, regOf_regByte, hr]
        rfl
    · rw [if_neg hr, if_neg hr]
      by_cases hz : cluiImm c = 0#32
      · rw [if_pos hz, if_pos hz, next_illegal _ _ _ _ _ _ rfl]
        rfl
      · rw [if_neg hz, if_neg hz, next_lui _ _ _ _ _ _ rfl]
        simp only [op_head, rd_head, imm_head, imm_tail, regOf_regByte]
        rfl
  case h_9 _ hk =>
    rw [hdec]
    simp only [decodeOne, lower, lower16, hk]
    exact next_miscAlu h r off _ c
  case h_10 _ hk =>
    rw [hdec]
    simp only [decodeOne, lower, lower16, hk, Insn.inst]
    rw [next_branch _ _ _ _ _ _ 0#3 rfl _ rfl]
    simp only [op_head, rs1_head, rs2_head, imm_head, imm_tail, regOf_regByte, hx0]
    simp only [execute, branchTaken]
    cases (r.s.x (primeReg c 7) == 0#32) <;> rfl
  case h_11 _ hk =>
    rw [hdec]
    simp only [decodeOne, lower, lower16, hk, Insn.inst]
    rw [next_branch _ _ _ _ _ _ 1#3 rfl _ rfl]
    simp only [op_head, rs1_head, rs2_head, imm_head, imm_tail, regOf_regByte, hx0]
    simp only [execute, branchTaken]
    cases (r.s.x (primeReg c 7) != 0#32) <;> rfl
  case h_12 _ hk =>
    rw [hdec]
    simp only [decodeOne, lower, lower16, hk, Insn.inst]
    rw [next_aluImm _ _ _ _ _ _ 1#3 rfl]
    simp only [op_head, rs1_head, rd_head, imm_head, imm_tail, regOf_regByte]
    rfl
  case h_13 _ hk =>
    rw [hdec]
    simp only [decodeOne, lower, lower16, hk, Insn.inst]
    rw [next_load _ _ _ _ _ _ 2#3 rfl (by decide)]
    simp only [op_head, rs1_head, rd_head, imm_head, imm_tail, regOf_regByte]
    rfl
  case h_14 _ hk =>
    rw [hdec]
    simp only [decodeOne, lower, lower16, hk]
    exact next_jrMvAdd h hx0 off d c
  case h_15 _ hk =>
    rw [hdec]
    simp only [decodeOne, lower, lower16, hk, Insn.inst]
    rw [next_store _ _ _ _ _ _ 2#3 rfl (by decide)]
    simp only [op_head, rs1_head, rd_head, rs2_head, imm_head, imm_tail, regOf_regByte]
    rfl
  case h_16 =>
    rw [hdec]
    simp only [decodeOne, lower, Insn.inst, execute]
    rw [next_illegal _ _ _ _ _ _ (by unfold lower16; simp only; rfl)]

/-- The words that `purvs` lowers as the interpreter reads them. -/
def Insn.Plain : Insn → Prop
  | .word w => ¬ Quirk w
  | .half _ => True

/-- **A record does what the interpreter does**, whatever its slots held. -/
theorem next_decodeOne (h : Hooks H) {r : Run H} (hx0 : r.s.x 0#5 = 0#32) (off : Word) (d : Pair)
    {i : Insn} (hi : Insn.Plain i) :
    (decodeOne d i off).next h r off i.width = oneInsn h r off i := by
  cases i with
  | word w => exact next_lower32 h r off d hi
  | half c => exact next_lower16 h hx0 off d c

/-- No defined encoding is a quirk. -/
theorem Insn.plain_of_defined {i : Insn} (hi : i.Defined) : Insn.Plain i := by
  cases i with
  | half c => trivial
  | word w =>
    rintro ⟨hop, h7, h0, h5⟩
    rcases hi with ⟨j, rfl⟩ | href
    · have hact := decode32_encode (fun _ => 0#32) j
      generalize encode j = w at *
      unfold OP at hop
      simp only [decode32, hop] at hact
      rw [if_neg (by rw [h7]; decide), h7] at hact
      cases j with
      | opImm o rd rs1 imm =>
        simp only [Instr.action, Action.alu.injEq] at hact
        exact absurd hact.2.2.2.2 (by decide)
      | shiftImm o rd rs1 sh =>
        simp only [Instr.action, Action.alu.injEq] at hact
        obtain ⟨-, -, -, hf3, hf7⟩ := hact
        cases o with
        | srai => exact h5 hf3
        | _ => exact absurd hf7 (by decide)
      | op o rd rs1 rs2 =>
        simp only [Instr.action, Action.alu.injEq] at hact
        obtain ⟨-, -, -, hf3, hf7⟩ := hact
        cases o with
        | sub => exact h0 hf3
        | sra => exact h5 hf3
        | _ => exact absurd hf7 (by decide)
      | _ => cases hact
    · have hr := href fun _ => 0#32
      unfold OP at hop
      simp only [decode32, hop] at hr
      rw [if_neg (by rw [h7]; decide)] at hr
      cases hr

end Purv.Purvs
