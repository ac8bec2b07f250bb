import Purv.Transcode
import Purv.PurvsDecode

/-!
# What a decoded instruction means

* `Dec.next` — the effect that the interpreter gives a decoded instruction, by its op;
* `Misread` — the words that the transcoder and the interpreter read differently: `funct7 = 0x20`
  with a `funct3` that has no such form, and the custom-0 instruction, which the interpreter traps;
* `next_decode` — for every other word the op and the interpreter's action body do the same.
-/

namespace Purv.Transcode

open Bits Isa

variable {H : Type}

/-! ## Fetch -/

/-- Four bytes, by twos or at once. -/
theorem word_of_bytes (a b c d : Byte) :
    (a.setWidth 16 ||| b.setWidth 16 <<< 8).setWidth 32 |||
        ((c.setWidth 16 ||| d.setWidth 16 <<< 8).setWidth 32 : Word) <<< 16 =
      a.setWidth 32 ||| b.setWidth 32 <<< 8 ||| c.setWidth 32 <<< 16 ||| d.setWidth 32 <<< 24 := by
  ext i hi
  interval_cases i <;> simp

/-- The transcoder and the interpreter fetch the same word. -/
theorem fetch_wordAt {code : Nat → Byte} {off : Word}
    (hlow : (wordAt code off).extractLsb' 0 2 = 3#2) :
    fetch code off = .word (wordAt code off) := by
  have hlo : (fetchHalf code off).extractLsb' 0 2 = (wordAt code off).extractLsb' 0 2 := by
    unfold fetchHalf wordAt
    ext i hi
    interval_cases i <;> simp
  unfold fetch
  simp only [hlo, hlow, if_true]
  congr 1
  unfold fetchHalf wordAt
  rw [BitVec.add_assoc, show 2#32 + 1#32 = 3#32 from rfl]
  exact word_of_bytes _ _ _ _

/-! ## Meaning -/

/-- The `funct3` of a load op. -/
def loadFunct3 (op : Nat) : BitVec 3 :=
  match op with
  | RISCV_OP_LB => 0#3
  | RISCV_OP_LH => 1#3
  | RISCV_OP_LW => 2#3
  | RISCV_OP_LBU => 4#3
  | _ => 5#3

/-- The condition of a branch op. -/
def taken (op : Nat) (a b : Word) : Bool :=
  match op with
  | RISCV_OP_BEQ => a == b
  | RISCV_OP_BNE => a != b
  | RISCV_OP_BLT => a.slt b
  | RISCV_OP_BGE => !a.slt b
  | RISCV_OP_BLTU => a.ult b
  | _ => !a.ult b

/-- The trap of a trap op. -/
def trapOf (op : Nat) : Trap :=
  if op = RISCV_OP_ECALL then .ecall else if op = RISCV_OP_EBREAK then .ebreak else .illegal

/-- The effect of a decoded instruction at `pc`, as the interpreter would have it. -/
def Dec.next (h : Hooks H) (r : Run H) (pc inst : Word) (d : Dec) : Run H × Next :=
  let a := r.s.x d.rs1
  let b := r.s.x d.rs2
  if d.op ≤ RISCV_OP_AND then
    (r.wr d.rd (alu a b (BitVec.ofNat 3 d.op) 0#7), .done)
  else if d.op = RISCV_OP_SUB then (r.wr d.rd (alu a b 0#3 0x20#7), .done)
  else if d.op = RISCV_OP_SRA then (r.wr d.rd (alu a b 5#3 0x20#7), .done)
  else if d.op ≤ RISCV_OP_ANDI then
    (r.wr d.rd (alu a d.imm (BitVec.ofNat 3 (d.op - RISCV_OP_ADDI)) 0#7), .done)
  else if d.op = RISCV_OP_SRAI then (r.wr d.rd (alu a d.imm 5#3 0x20#7), .done)
  else if d.op ≤ RISCV_OP_REMU then
    (r.wr d.rd (mul a b (BitVec.ofNat 3 (d.op - RISCV_OP_MUL))), .done)
  else if d.op ≤ RISCV_OP_LHU then (execLoad h r d.rd (a + d.imm) (loadFunct3 d.op), .done)
  else if d.op ≤ RISCV_OP_SW then
    (execStore h r (a + d.imm) b (BitVec.ofNat 3 (d.op - RISCV_OP_SB)), .done)
  else if d.op ≤ RISCV_OP_BGEU then (r, if taken d.op a b then .jump d.target else .done)
  else if d.op = RISCV_OP_JAL then (r.wr d.rd (pc + 4#32), .jump d.target)
  else if d.op = RISCV_OP_JALR then (r.wr d.rd (pc + 4#32), .jump ((a + d.imm) &&& ~~~1#32))
  else if d.op = RISCV_OP_LUI then (r.wr d.rd (d.imm <<< 12), .done)
  else if d.op = RISCV_OP_AUIPC then (r.wr d.rd (pc + d.imm <<< 12), .done)
  else if d.op = RISCV_OP_NOP then (r, .done)
  else r.raise h pc inst (trapOf d.op)

/-- The words that the transcoder reads otherwise than the interpreter. -/
def Misread (w : Word) : Prop :=
  Purvs.Quirk w ∨ ((w.extractLsb' 0 7).toNat = CUSTOM0 ∧ w.extractLsb' 25 7 = 0#7)

section
variable (h : Hooks H) (r : Run H) (pc inst : Word) (d : Dec)

theorem next_aluReg (f3 : BitVec 3) {f7 : BitVec 7} (hf7 : f7 ≠ 0x20#7)
    (hop : d.op = RISCV_OP_ADD + f3.toNat) :
    d.next h r pc inst = (r.wr d.rd (alu (r.s.x d.rs1) (r.s.x d.rs2) f3 f7), .done) := by
  obtain ⟨op, rd, rs1, rs2, imm, target, width⟩ := d
  cases hop
  unfold alu
  simp only [if_neg hf7]
  rcases three_bits f3 with hf | hf | hf | hf | hf | hf | hf | hf <;> subst hf <;> rfl

theorem next_aluImm (f3 : BitVec 3) {f7 : BitVec 7} (hf7 : f7 ≠ 0x20#7)
    (hop : d.op = RISCV_OP_ADDI + f3.toNat) :
    d.next h r pc inst = (r.wr d.rd (alu (r.s.x d.rs1) d.imm f3 f7), .done) := by
  obtain ⟨op, rd, rs1, rs2, imm, target, width⟩ := d
  cases hop
  unfold alu
  simp only [if_neg hf7]
  rcases three_bits f3 with hf | hf | hf | hf | hf | hf | hf | hf <;> subst hf <;> rfl

theorem next_mul (f3 : BitVec 3) (hop : d.op = RISCV_OP_MUL + f3.toNat) :
    d.next h r pc inst = (r.wr d.rd (mul (r.s.x d.rs1) (r.s.x d.rs2) f3), .done) := by
  obtain ⟨op, rd, rs1, rs2, imm, target, width⟩ := d
  cases hop
  rcases three_bits f3 with hf | hf | hf | hf | hf | hf | hf | hf <;> subst hf <;> rfl

theorem next_load (f3 : BitVec 3) (hop : d.op = loadOp f3) (hf3 : ¬ (f3 = 3#3 ∨ f3 > 5#3)) :
    d.next h r pc inst = (execLoad h r d.rd (r.s.x d.rs1 + d.imm) f3, .done) := by
  obtain ⟨op, rd, rs1, rs2, imm, target, width⟩ := d
  cases hop
  rcases three_bits f3 with hf | hf | hf | hf | hf | hf | hf | hf <;> subst hf
  case inr.inr.inr.inl => exact absurd (by decide) hf3
  case inr.inr.inr.inr.inr.inr.inl => exact absurd (by decide) hf3
  case inr.inr.inr.inr.inr.inr.inr => exact absurd (by decide) hf3
  all_goals rfl

theorem next_store (f3 : BitVec 3) (hop : d.op = storeOp f3) (hf3 : ¬ f3 > 2#3) :
    d.next h r pc inst = (execStore h r (r.s.x d.rs1 + d.imm) (r.s.x d.rs2) f3, .done) := by
  obtain ⟨op, rd, rs1, rs2, imm, target, width⟩ := d
  cases hop
  rcases three_bits f3 with hf | hf | hf | hf | hf | hf | hf | hf <;> subst hf
  case inl => rfl
  case inr.inl => rfl
  case inr.inr.inl => rfl
  all_goals exact absurd (by decide) hf3

theorem next_branch (f3 : BitVec 3) (hop : d.op = branchOp f3) (t : Bool)
    (ht : branchTaken (r.s.x d.rs1) (r.s.x d.rs2) f3 = some t) :
    d.next h r pc inst = (r, if t then .jump d.target else .done) := by
  obtain ⟨op, rd, rs1, rs2, imm, target, width⟩ := d
  cases hop
  simp only at ht
  rcases three_bits f3 with hf | hf | hf | hf | hf | hf | hf | hf <;> subst hf <;> cases ht <;>
    rfl

theorem next_illegal (hop : d.op = RISCV_OP_ILLEGAL) :
    d.next h r pc inst = r.raise h pc inst .illegal := by
  obtain ⟨op, rd, rs1, rs2, imm, target, width⟩ := d
  cases hop
  rfl

end

theorem loadOp_illegal {f3 : BitVec 3} (hf : f3 = 3#3 ∨ f3 > 5#3) : loadOp f3 = RISCV_OP_ILLEGAL := by
  revert hf
  rcases three_bits f3 with hf | hf | hf | hf | hf | hf | hf | hf <;> subst hf <;> decide

theorem storeOp_illegal {f3 : BitVec 3} (hf : f3 > 2#3) : storeOp f3 = RISCV_OP_ILLEGAL := by
  revert hf
  rcases three_bits f3 with hf | hf | hf | hf | hf | hf | hf | hf <;> subst hf <;> decide

theorem branchOp_illegal {f3 : BitVec 3} {a b : Word} (hf : branchTaken a b f3 = none) :
    branchOp f3 = RISCV_OP_ILLEGAL := by
  revert hf
  rcases three_bits f3 with hf | hf | hf | hf | hf | hf | hf | hf <;> subst hf <;>
    simp [branchTaken, branchOp]

theorem upper_bits (w : Word) : bits w 12 20 <<< 12 = w &&& 0xfffff000#32 := by
  ext i hi
  interval_cases i <;> simp [bits]

/-- **A decoded word does what the interpreter does**, before writes to x0 are dropped. -/
theorem next_decodeWord (h : Hooks H) (r : Run H) (pc : Word) {w : Word} (hq : ¬ Misread w) :
    (decodeWord w pc).next h r pc w = execute h r pc 4#32 w (decode32 r.s.x w) := by
  have hdec : decode32 r.s.x w = decode32 r.s.x w := rfl
  conv at hdec => rhs; unfold decode32
  split at hdec
  case h_1 _ hk =>
    rw [hdec]
    simp only [decodeWord, hk, execute]
    generalize w.extractLsb' 12 3 = f3
    by_cases h1 : f3 = 1#3
    · subst h1
      rfl
    · rw [if_neg h1]
      by_cases h5 : f3 = 5#3
      · subst h5
        rw [if_pos rfl, if_pos (Or.inr rfl)]
        by_cases h20 : w.extractLsb' 25 7 = 0x20#7
        · rw [if_pos h20, h20]
          rfl
        · rw [if_neg h20]
          exact next_aluImm h r pc w _ 5#3 h20 rfl
      · rw [if_neg h5, if_neg (by rintro (hf | hf) <;> contradiction)]
        exact next_aluImm h r pc w _ f3 (by decide) rfl
  case h_2 _ hk =>
    have hf3 : w.extractLsb' 25 7 = 0x20#7 → w.extractLsb' 12 3 ≠ 0#3 → w.extractLsb' 12 3 = 5#3 :=
      fun h7 h0 => Classical.byContradiction fun h5 => hq (Or.inl ⟨hk, h7, h0, h5⟩)
    rw [hdec]
    simp only [decodeWord, hk, execute]
    generalize w.extractLsb' 12 3 = f3 at hf3 ⊢
    by_cases hm : w.extractLsb' 25 7 = 1#7
    · rw [if_pos hm, if_pos hm]
      exact next_mul h r pc w _ f3 rfl
    · rw [if_neg hm, if_neg hm]
      by_cases h20 : w.extractLsb' 25 7 = 0x20#7
      · rw [if_pos h20]
        by_cases h0 : f3 = 0#3
        · rw [if_pos h0, h0, h20]
          rfl
        · rw [if_neg h0, hf3 h20 h0, h20]
          rfl
      · rw [if_neg h20]
        exact next_aluReg h r pc w _ f3 h20 rfl
  case h_3 _ hk =>
    rw [hdec]
    simp only [decodeWord, hk, execute]
    split
    · rename_i hf
      exact next_illegal h r pc w _ (loadOp_illegal hf)
    · rename_i hf
      exact next_load h r pc w _ _ rfl hf
  case h_4 _ hk =>
    rw [hdec]
    simp only [decodeWord, hk, execute]
    split
    · rename_i hf
      exact next_illegal h r pc w _ (storeOp_illegal hf)
    · rename_i hf
      exact next_store h r pc w _ _ rfl hf
  case h_5 _ hk =>
    rw [hdec]
    simp only [decodeWord, hk, execute]
    split
    · rename_i ht
      exact next_illegal h r pc w _ (branchOp_illegal ht)
    · rename_i ht
      exact next_branch h r pc w _ _ rfl true ht
    · rename_i ht
      exact next_branch h r pc w _ _ rfl false ht
  case h_6 _ hk =>
    rw [hdec]
    simp only [decodeWord, hk, execute]
    rfl
  case h_7 _ hk =>
    rw [hdec]
    simp only [decodeWord, hk, execute]
    rfl
  case h_8 _ hk =>
    rw [hdec]
    simp only [decodeWord, hk, execute]
    rw [← upper_bits]
    rfl
  case h_9 _ hk =>
    rw [hdec]
    simp only [decodeWord, hk, execute]
    rw [← upper_bits]
    rfl
  case h_10 _ hk =>
    rw [hdec]
    simp only [decodeWord, hk]
    split
    · rfl
    · rfl
  case h_11 _ hk =>
    rw [hdec]
    simp only [decodeWord, hk, execute]
    split
    · rfl
    · split
      · rfl
      · rfl
  case h_12 =>
    rw [hdec]
    clear hdec
    refine next_illegal h r pc w _ ?_
    unfold decodeWord
    simp only
    split
    case h_10 _ hk => rw [if_neg fun h7 => hq (Or.inr ⟨hk, h7⟩)]
    all_goals first
      | contradiction
      | rfl

/-- Dropping a write to x0 changes nothing. -/
theorem next_foldZero (h : Hooks H) (r : Run H) (pc inst : Word) (d : Dec) :
    d.foldZero.next h r pc inst = d.next h r pc inst := by
  have hz : ∀ v, r.wr 0#5 v = r := fun v => by
    unfold Run.wr
    rw [wr_zero]
  unfold Dec.foldZero
  split
  · rename_i hc
    obtain ⟨op, rd, rs1, rs2, imm, target, width⟩ := d
    obtain ⟨hrd, hop⟩ := hc
    simp only at hrd hop
    subst hrd
    have hnop : ({ op := RISCV_OP_NOP, rd := 0#5, rs1, rs2, imm, target, width } : Dec).next h r pc
        inst = (r, .done) := rfl
    rw [hnop]
    unfold Dec.next
    simp only [hz]
    rcases hop with hop | hop | hop
    · have hlt : op < 27 := Nat.lt_succ_of_le hop
      clear hop hnop
      interval_cases op <;> rfl
    · subst hop
      rfl
    · subst hop
      rfl
  · rfl

/-- **A decoded instruction does what the interpreter does.** -/
theorem next_decode (h : Hooks H) (r : Run H) {code : Nat → Byte} {pc : Word}
    (hlow : (wordAt code pc).extractLsb' 0 2 = 3#2) (hq : ¬ Misread (wordAt code pc)) :
    oneInsn h r pc (fetch code pc) = (decode code pc).next h r pc (wordAt code pc) := by
  rw [fetch_wordAt hlow]
  unfold decode
  rw [next_foldZero, next_decodeWord h r pc hq]
  rfl

end Purv.Transcode
