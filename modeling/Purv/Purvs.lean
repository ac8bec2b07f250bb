import Purv.Engine

/-!
# The decode-ahead engine (`purvs.c`)

`purvs` lowers a run of instructions into a buffer of slots, threads through the buffer, and
performs a trap afterwards from its own bookkeeping.

* `Slot` — the union of the source: four bytes, read as a head or as one immediate;
* `decodeOne` — one instruction into a head slot and, for some ops, the slot after it;
* `handler`, `defaultEval` — `RiscvEmulatorDefaultEval`;
* `decodeAhead` — loop 1, which traces through unconditional jumps;
* `stepOne`, `fixupPc` — the resume pc of an evaluator that stopped early;
* `beforeTrap`, `round`, `loopFrom`, `riscvEmulatorLoop` — the run loop over any evaluator.
-/

namespace Purv.Purvs

open Bits

variable {H : Type}

/-! ## Leaf ops -/

@[match_pattern] def RISCV_OP_ADD : Nat := 0
@[match_pattern] def RISCV_OP_SLL : Nat := 1
@[match_pattern] def RISCV_OP_SLT : Nat := 2
@[match_pattern] def RISCV_OP_SLTU : Nat := 3
@[match_pattern] def RISCV_OP_XOR : Nat := 4
@[match_pattern] def RISCV_OP_SRL : Nat := 5
@[match_pattern] def RISCV_OP_OR : Nat := 6
@[match_pattern] def RISCV_OP_AND : Nat := 7
@[match_pattern] def RISCV_OP_SUB : Nat := 8
@[match_pattern] def RISCV_OP_SRA : Nat := 9
@[match_pattern] def RISCV_OP_ADDI : Nat := 10
@[match_pattern] def RISCV_OP_SLLI : Nat := 11
@[match_pattern] def RISCV_OP_SLTI : Nat := 12
@[match_pattern] def RISCV_OP_SLTIU : Nat := 13
@[match_pattern] def RISCV_OP_XORI : Nat := 14
@[match_pattern] def RISCV_OP_SRLI : Nat := 15
@[match_pattern] def RISCV_OP_ORI : Nat := 16
@[match_pattern] def RISCV_OP_ANDI : Nat := 17
@[match_pattern] def RISCV_OP_SRAI : Nat := 18
@[match_pattern] def RISCV_OP_MUL : Nat := 19
@[match_pattern] def RISCV_OP_MULH : Nat := 20
@[match_pattern] def RISCV_OP_MULHSU : Nat := 21
@[match_pattern] def RISCV_OP_MULHU : Nat := 22
@[match_pattern] def RISCV_OP_DIV : Nat := 23
@[match_pattern] def RISCV_OP_DIVU : Nat := 24
@[match_pattern] def RISCV_OP_REM : Nat := 25
@[match_pattern] def RISCV_OP_REMU : Nat := 26
@[match_pattern] def RISCV_OP_LB : Nat := 27
@[match_pattern] def RISCV_OP_LH : Nat := 28
@[match_pattern] def RISCV_OP_LW : Nat := 29
@[match_pattern] def RISCV_OP_LBU : Nat := 30
@[match_pattern] def RISCV_OP_LHU : Nat := 31
@[match_pattern] def RISCV_OP_SB : Nat := 32
@[match_pattern] def RISCV_OP_SH : Nat := 33
@[match_pattern] def RISCV_OP_SW : Nat := 34
@[match_pattern] def RISCV_OP_BEQ : Nat := 35
@[match_pattern] def RISCV_OP_BNE : Nat := 36
@[match_pattern] def RISCV_OP_BLT : Nat := 37
@[match_pattern] def RISCV_OP_BGE : Nat := 38
@[match_pattern] def RISCV_OP_BLTU : Nat := 39
@[match_pattern] def RISCV_OP_BGEU : Nat := 40
@[match_pattern] def RISCV_OP_JAL : Nat := 41
@[match_pattern] def RISCV_OP_JALR : Nat := 42
@[match_pattern] def RISCV_OP_LUI : Nat := 43
@[match_pattern] def RISCV_OP_NOP : Nat := 44
@[match_pattern] def RISCV_OP_ECALL : Nat := 45
@[match_pattern] def RISCV_OP_EBREAK : Nat := 46
@[match_pattern] def RISCV_OP_ILLEGAL : Nat := 47
@[match_pattern] def RISCV_OP_END : Nat := 48

/-- `RISCV_BLOCK_MAX`. -/
def RISCV_BLOCK_MAX : Nat := 64

/-- `RISCV_BLOCK_SLOTS`. -/
def RISCV_BLOCK_SLOTS : Nat := 2 * RISCV_BLOCK_MAX + 1

/-- `op_has_imm`: bits 10..18, 27..43 and 45..47 of `RISCV_IMM_MASK`. -/
def opHasImm (op : Nat) : Bool :=
  (10 ≤ op && op ≤ 18) || (27 ≤ op && op ≤ 43) || (45 ≤ op && op ≤ 47)

/-- `is_terminator`. -/
def isTerminator (op : Nat) : Bool :=
  (RISCV_OP_BEQ ≤ op && op ≤ RISCV_OP_JALR) || (RISCV_OP_ECALL ≤ op && op ≤ RISCV_OP_ILLEGAL)

/-! ## Slots -/

/-- `RiscvEmulatorDecoded_t`: the four bytes of a slot, under their names as a head. -/
structure Slot where
  op : Byte
  rd : Byte
  rs1 : Byte
  rs2 : Byte
  deriving DecidableEq

/-- The slot read as an immediate. -/
def Slot.imm (d : Slot) : Word := cat 32 d.rs2 (cat 24 d.rs1 (cat 16 d.rd d.op))

/-- The slot after a store through `imm`. -/
def Slot.ofImm (v : Word) : Slot :=
  ⟨v.extractLsb' 0 8, v.extractLsb' 8 8, v.extractLsb' 16 8, v.extractLsb' 24 8⟩

theorem imm_ofImm (v : Word) : (Slot.ofImm v).imm = v := by
  ext i hi
  unfold Slot.ofImm Slot.imm
  interval_cases i <;> simp [getElem_cat]

/-- An op code as the byte stored. -/
def opByte (op : Nat) : Byte := BitVec.ofNat 8 op

/-- A register index as the byte stored. -/
def regByte (r : Reg) : Byte := r.setWidth 8

/-- `x[d->rd]`: a byte as a register index; `decode_one` stores 0..31. -/
def regOf (b : Byte) : Reg := b.setWidth 5

@[simp] theorem regOf_regByte (r : Reg) : regOf (regByte r) = r := by
  simp [regOf, regByte]

/-- The buffer of slots. -/
abbrev Block := Nat → Slot

/-- `block[i] = d`. -/
def Block.set (b : Block) (i : Nat) (d : Slot) : Block := fun j => if j = i then d else b j

/-! ## Decode -/

/-- `load_op`. -/
def loadOp (f3 : BitVec 3) : Nat :=
  match f3.toNat with
  | 0 => RISCV_OP_LB
  | 1 => RISCV_OP_LH
  | 2 => RISCV_OP_LW
  | 4 => RISCV_OP_LBU
  | 5 => RISCV_OP_LHU
  | _ => RISCV_OP_ILLEGAL

/-- `store_op`. -/
def storeOp (f3 : BitVec 3) : Nat :=
  match f3.toNat with
  | 0 => RISCV_OP_SB
  | 1 => RISCV_OP_SH
  | 2 => RISCV_OP_SW
  | _ => RISCV_OP_ILLEGAL

/-- `branch_op`. -/
def branchOp (f3 : BitVec 3) : Nat :=
  match f3.toNat with
  | 0 => RISCV_OP_BEQ
  | 1 => RISCV_OP_BNE
  | 4 => RISCV_OP_BLT
  | 5 => RISCV_OP_BGE
  | 6 => RISCV_OP_BLTU
  | 7 => RISCV_OP_BGEU
  | _ => RISCV_OP_ILLEGAL

/-- The two slots `d[0]` and `d[1]` that `decode_one` may write. -/
structure Pair where
  head : Slot
  tail : Slot

/-- `d->op = op`. -/
def Pair.op (d : Pair) (op : Nat) : Pair := { d with head := { d.head with op := opByte op } }

/-- `d->rd = r`. -/
def Pair.rd (d : Pair) (r : Reg) : Pair := { d with head := { d.head with rd := regByte r } }

/-- `d->rs1 = r`. -/
def Pair.rs1 (d : Pair) (r : Reg) : Pair := { d with head := { d.head with rs1 := regByte r } }

/-- `d->rs2 = r`. -/
def Pair.rs2 (d : Pair) (r : Reg) : Pair := { d with head := { d.head with rs2 := regByte r } }

/-- `d[1].imm = v`. -/
def Pair.imm (d : Pair) (v : Word) : Pair := { d with tail := Slot.ofImm v }

section
variable (d : Pair) (n : Nat) (r : Reg) (v : Word)

@[simp] theorem op_head : (d.op n).head = { d.head with op := opByte n } := rfl
@[simp] theorem op_tail : (d.op n).tail = d.tail := rfl
@[simp] theorem rd_head : (d.rd r).head = { d.head with rd := regByte r } := rfl
@[simp] theorem rd_tail : (d.rd r).tail = d.tail := rfl
@[simp] theorem rs1_head : (d.rs1 r).head = { d.head with rs1 := regByte r } := rfl
@[simp] theorem rs1_tail : (d.rs1 r).tail = d.tail := rfl
@[simp] theorem rs2_head : (d.rs2 r).head = { d.head with rs2 := regByte r } := rfl
@[simp] theorem rs2_tail : (d.rs2 r).tail = d.tail := rfl
@[simp] theorem imm_head : (d.imm v).head = d.head := rfl
@[simp] theorem imm_tail : (d.imm v).tail.imm = v := imm_ofImm v

end

/-- The 32-bit arms of `decode_one`. -/
def lower32 (d : Pair) (w off : Word) : Pair :=
  let rd : Reg := w.extractLsb' 7 5
  let rs1 : Reg := w.extractLsb' 15 5
  let rs2 : Reg := w.extractLsb' 20 5
  let f3 : BitVec 3 := w.extractLsb' 12 3
  let f7 : BitVec 7 := w.extractLsb' 25 7
  let d := (d.rd rd).rs1 rs1
  match (w.extractLsb' 0 7).toNat with
  | OPIMM =>
    if f3 = 1#3 ∨ f3 = 5#3 then
      (d.imm (bits w 20 5)).op
        (if f3 = 5#3 ∧ f7 = 0x20#7 then RISCV_OP_SRAI else RISCV_OP_ADDI + f3.toNat)
    else (d.imm (w.sshiftRight 20)).op (RISCV_OP_ADDI + f3.toNat)
  | OP =>
    let d := d.rs2 rs2
    if f7 = 1#7 then d.op (RISCV_OP_MUL + f3.toNat)
    else if f7 = 0x20#7 then d.op (if f3 = 0#3 then RISCV_OP_SUB else RISCV_OP_SRA)
    else d.op (RISCV_OP_ADD + f3.toNat)
  | LOAD => (d.op (loadOp f3)).imm (w.sshiftRight 20)
  | STORE => ((d.op (storeOp f3)).rs2 rs2).imm (storeImm w)
  | BRANCH => ((d.op (branchOp f3)).rs2 rs2).imm (off + branchImm w)
  | JAL => (d.op RISCV_OP_JAL).imm (off + jalImm w)
  | JALR => (d.op RISCV_OP_JALR).imm (w.sshiftRight 20)
  | LUI => (d.op RISCV_OP_LUI).imm (w &&& 0xfffff000#32)
  | AUIPC => (d.op RISCV_OP_LUI).imm (off + (w &&& 0xfffff000#32))
  | MISCMEM =>
    d.op (if rd ≠ 0#5 ∨ rs1 ≠ 0#5 ∨ (f3 ≠ 0#3 ∧ f3 ≠ 1#3) then RISCV_OP_ILLEGAL else RISCV_OP_NOP)
  | SYSTEM =>
    if f3 = 0#3 ∧ rd = 0#5 ∧ rs1 = 0#5 ∧ bits w 20 12 = 0#32 then d.op RISCV_OP_ECALL
    else if f3 = 0#3 ∧ rd = 0#5 ∧ rs1 = 0#5 ∧ bits w 20 12 = 1#32 then d.op RISCV_OP_EBREAK
    else d.op RISCV_OP_ILLEGAL
  | _ => d.op RISCV_OP_ILLEGAL

/-- `case 4 << 2 | 1`: C.MISC-ALU. -/
def lowerMiscAlu (d : Pair) (c : Half) : Pair :=
  let rsp := primeReg c 7
  let d := (d.rd rsp).rs1 rsp
  match (c.extractLsb' 10 2).toNat with
  | 0 => (d.op RISCV_OP_SRLI).imm (shamt c)
  | 1 => (d.op RISCV_OP_SRAI).imm (shamt c)
  | 2 => (d.op RISCV_OP_ANDI).imm (sext (shamt c) 6)
  | _ =>
    if c.extractLsb' 12 1 = 1#1 then d.op RISCV_OP_ILLEGAL
    else
      let d := d.rs2 (primeReg c 2)
      match (c.extractLsb' 5 2).toNat with
      | 0 => d.op RISCV_OP_SUB
      | 1 => d.op RISCV_OP_XOR
      | 2 => d.op RISCV_OP_OR
      | _ => d.op RISCV_OP_AND

/-- `case 4 << 2 | 2`: C.JR, C.JALR, C.MV, C.ADD, C.EBREAK. -/
def lowerJrMvAdd (d : Pair) (c : Half) : Pair :=
  let rd : Reg := c.extractLsb' 7 5
  let rs2 : Reg := c.extractLsb' 2 5
  if c.extractLsb' 12 1 = 0#1 then
    if rs2 = 0#5 then (((d.op RISCV_OP_JALR).rs1 rd).rd 0#5).imm 0#32
    else (((d.op RISCV_OP_ADD).rd rd).rs1 0#5).rs2 rs2
  else if rd = 0#5 ∧ rs2 = 0#5 then d.op RISCV_OP_EBREAK
  else if rs2 = 0#5 then (((d.op RISCV_OP_JALR).rs1 rd).rd 1#5).imm 0#32
  else ((d.op RISCV_OP_ADD).rs1 rd).rs2 rs2

/-- The compressed arms of `decode_one`. -/
def lower16 (d : Pair) (c : Half) (off : Word) : Pair :=
  let rd : Reg := c.extractLsb' 7 5
  let rdp := primeReg c 2
  let rsp := primeReg c 7
  let d := d.rd rd
  match (c.extractLsb' 13 3).toNat * 4 + (c.extractLsb' 0 2).toNat with
  | 0 =>
    (((d.op (if addi4spnImm c = 0#32 then RISCV_OP_ILLEGAL else RISCV_OP_ADDI)).rd rdp).rs1
      2#5).imm (addi4spnImm c)
  | 8 => (((d.op RISCV_OP_LW).rd rdp).rs1 rsp).imm (clwImm c)
  | 24 => (((d.op RISCV_OP_SW).rs1 rsp).rs2 rdp).imm (clwImm c)
  | 1 => ((d.op RISCV_OP_ADDI).rs1 rd).imm (sext (shamt c) 6)
  | 5 => ((d.rd 1#5).op RISCV_OP_JAL).imm (off + cjImm c)
  | 21 => ((d.rd 0#5).op RISCV_OP_JAL).imm (off + cjImm c)
  | 9 => ((d.op RISCV_OP_ADDI).rs1 0#5).imm (sext (shamt c) 6)
  | 13 =>
    if rd = 2#5 then
      (((d.op (if addi16spImm c = 0#32 then RISCV_OP_ILLEGAL else RISCV_OP_ADDI)).rd 2#5).rs1
        2#5).imm (addi16spImm c)
    else (d.op (if cluiImm c = 0#32 then RISCV_OP_ILLEGAL else RISCV_OP_LUI)).imm (cluiImm c)
  | 17 => lowerMiscAlu d c
  | 25 => (((d.op RISCV_OP_BEQ).rs1 rsp).rs2 0#5).imm (off + cbImm c)
  | 29 => (((d.op RISCV_OP_BNE).rs1 rsp).rs2 0#5).imm (off + cbImm c)
  | 2 => ((d.op RISCV_OP_SLLI).rs1 rd).imm (shamt c)
  | 10 => ((d.op RISCV_OP_LW).rs1 2#5).imm (clwspImm c)
  | 18 => lowerJrMvAdd d c
  | 26 => (((d.op RISCV_OP_SW).rs1 2#5).rs2 (c.extractLsb' 2 5)).imm (cswspImm c)
  | _ => d.op RISCV_OP_ILLEGAL

/-- The two arms, by the size of the instruction. -/
def lower (d : Pair) (i : Insn) (off : Word) : Pair :=
  match i with
  | .word w => lower32 d w off
  | .half c => lower16 d c off

/-- A trap op. -/
def isTrap (op : Nat) : Bool := RISCV_OP_ECALL ≤ op && op ≤ RISCV_OP_ILLEGAL

/-- The fixup at the end of `decode_one`: a trap op carries the raw word. -/
def Pair.fixup (d : Pair) (raw : Word) : Pair :=
  if isTrap d.head.op.toNat then d.imm raw else d

/-- `decode_one`. -/
def decodeOne (d : Pair) (i : Insn) (off : Word) : Pair := (lower d i off).fixup i.inst

/-! ## The default evaluator -/

/-- A load handler: `x[rd]` from `n` bytes at `x[rs1] + imm`, or from the callback. -/
def hLoad (h : Hooks H) (r : Run H) (d : Slot) (imm : Word) (f3 : BitVec 3) : Run H × Nat :=
  (execLoad h r (regOf d.rd) (r.s.x (regOf d.rs1) + imm) f3, 2)

/-- A store handler. -/
def hStore (h : Hooks H) (r : Run H) (d : Slot) (imm : Word) (f3 : BitVec 3) : Run H × Nat :=
  (execStore h r (r.s.x (regOf d.rs1) + imm) (r.s.x (regOf d.rs2)) f3, 2)

/-- A branch handler: the baked target if taken. -/
def hBranch (r : Run H) (imm : Word) (taken : Bool) : Run H × Nat :=
  (if taken then r.setPc imm else r, 2)

/-- The handlers, each with the slots its cursor strides: `d` is the head and `imm` the slot after
it. -/
def handler (h : Hooks H) (r : Run H) (d : Slot) (imm : Word) : Run H × Nat :=
  let a := r.s.x (regOf d.rs1)
  let b := r.s.x (regOf d.rs2)
  let rd := regOf d.rd
  match d.op.toNat with
  | RISCV_OP_ADD => (r.wr rd (a + b), 1)
  | RISCV_OP_SUB => (r.wr rd (a - b), 1)
  | RISCV_OP_SLL => (r.wr rd (a <<< (b &&& 31#32)), 1)
  | RISCV_OP_SLT => (r.wr rd (if a.slt b then 1#32 else 0#32), 1)
  | RISCV_OP_SLTU => (r.wr rd (if a.ult b then 1#32 else 0#32), 1)
  | RISCV_OP_XOR => (r.wr rd (a ^^^ b), 1)
  | RISCV_OP_SRL => (r.wr rd (a >>> (b &&& 31#32)), 1)
  | RISCV_OP_SRA => (r.wr rd (a.sshiftRight (b &&& 31#32).toNat), 1)
  | RISCV_OP_OR => (r.wr rd (a ||| b), 1)
  | RISCV_OP_AND => (r.wr rd (a &&& b), 1)
  | RISCV_OP_ADDI => (r.wr rd (a + imm), 2)
  | RISCV_OP_SLLI => (r.wr rd (a <<< (imm &&& 31#32)), 2)
  | RISCV_OP_SLTI => (r.wr rd (if a.slt imm then 1#32 else 0#32), 2)
  | RISCV_OP_SLTIU => (r.wr rd (if a.ult imm then 1#32 else 0#32), 2)
  | RISCV_OP_XORI => (r.wr rd (a ^^^ imm), 2)
  | RISCV_OP_SRLI => (r.wr rd (a >>> (imm &&& 31#32)), 2)
  | RISCV_OP_ORI => (r.wr rd (a ||| imm), 2)
  | RISCV_OP_ANDI => (r.wr rd (a &&& imm), 2)
  | RISCV_OP_SRAI => (r.wr rd (a.sshiftRight (imm &&& 31#32).toNat), 2)
  | RISCV_OP_MUL => (r.wr rd (a * b), 1)
  | RISCV_OP_MULH =>
    (r.wr rd (((a.signExtend 64 * b.signExtend 64) >>> 32).setWidth 32), 1)
  | RISCV_OP_MULHSU =>
    (r.wr rd (((a.signExtend 64 * b.setWidth 64) >>> 32).setWidth 32), 1)
  | RISCV_OP_MULHU =>
    (r.wr rd (((a.setWidth 64 * b.setWidth 64) >>> 32).setWidth 32), 1)
  | RISCV_OP_DIV =>
    (r.wr rd (if b = 0#32 then 0xffffffff#32
      else if a = 0x80000000#32 ∧ b = 0xffffffff#32 then a else a.sdiv b), 1)
  | RISCV_OP_DIVU => (r.wr rd (if b = 0#32 then 0xffffffff#32 else a / b), 1)
  | RISCV_OP_REM =>
    (r.wr rd (if b = 0#32 then a
      else if a = 0x80000000#32 ∧ b = 0xffffffff#32 then 0#32 else a.srem b), 1)
  | RISCV_OP_REMU => (r.wr rd (if b = 0#32 then a else a % b), 1)
  | RISCV_OP_LB => hLoad h r d imm 0#3
  | RISCV_OP_LH => hLoad h r d imm 1#3
  | RISCV_OP_LW => hLoad h r d imm 2#3
  | RISCV_OP_LBU => hLoad h r d imm 4#3
  | RISCV_OP_LHU => hLoad h r d imm 5#3
  | RISCV_OP_SB => hStore h r d imm 0#3
  | RISCV_OP_SH => hStore h r d imm 1#3
  | RISCV_OP_SW => hStore h r d imm 2#3
  | RISCV_OP_BEQ => hBranch r imm (a == b)
  | RISCV_OP_BNE => hBranch r imm (a != b)
  | RISCV_OP_BLT => hBranch r imm (a.slt b)
  | RISCV_OP_BGE => hBranch r imm (!a.slt b)
  | RISCV_OP_BLTU => hBranch r imm (a.ult b)
  | RISCV_OP_BGEU => hBranch r imm (!a.ult b)
  | RISCV_OP_JAL => ((r.wr rd r.s.pc).setPc imm, 2)
  | RISCV_OP_JALR => ((r.wr rd r.s.pc).setPc ((a + imm) &&& ~~~1#32), 2)
  | RISCV_OP_LUI => (r.wr rd imm, 2)
  | _ => (r, 1)

/-- `RiscvEmulatorDefaultEval` from slot `d` on.  The fuel is the slots of the buffer: the cursor
only moves forward. -/
def defaultEvalFrom (h : Hooks H) (block : Block) : Nat → Run H → Nat → Run H × Nat
  | 0, r, d => (r, d)
  | fuel + 1, r, d =>
    let op := (block d).op.toNat
    if isTrap op then (r, d + 1)
    else if op = RISCV_OP_END then (r, d)
    else
      let (r, stride) := handler h r (block d) (block (d + 1)).imm
      defaultEvalFrom h block fuel r (d + stride)

/-- `RiscvEmulatorEvalFn`. -/
abbrev EvalFn (H : Type) := Hooks H → Run H → Block → Run H × Nat

/-- `RiscvEmulatorDefaultEval`. -/
def defaultEval : EvalFn H := fun h r block => defaultEvalFrom h block RISCV_BLOCK_SLOTS r 0

/-! ## The resume pc of an early exit -/

/-- `step_one`: the width and, for an unconditional jump, whether it links and its target. -/
def stepOne (i : Insn) (pc : Word) : Word × Option (Bool × Word) :=
  match i with
  | .word w =>
    if (w.extractLsb' 0 7).toNat = JAL then
      (4#32, some (w.extractLsb' 7 5 != (0#5 : Reg), pc + jalImm w))
    else (4#32, none)
  | .half c =>
    let sel := (c.extractLsb' 13 3).toNat * 4 + (c.extractLsb' 0 2).toNat
    if sel = 5 ∨ sel = 21 then (2#32, some (sel == 5, pc + cjImm c)) else (2#32, none)

/-- `fixup_pc`: the pc after `records` records from `pc`, and the instructions covered.  The fuel
bounds the instructions walked. -/
def fixupPc (code : Nat → Byte) (records : Nat) : Nat → Word → Nat → Nat → Word × Nat
  | 0, pc, _, cnt => (pc, cnt)
  | fuel + 1, pc, recs, cnt =>
    if recs < records then
      match stepOne (fetch code pc) pc with
      | (_, some (link, target)) =>
        fixupPc code records fuel target (if link then recs + 1 else recs) (cnt + 1)
      | (width, none) => fixupPc code records fuel (pc + width) (recs + 1) (cnt + 1)
    else (pc, cnt)

/-! ## The run loop -/

/-- The variables of loop 1: the buffer, its write cursor, the last head, the pc, and the counts of
records and instructions. -/
structure Ahead where
  block : Block
  w : Nat
  last_w : Nat
  pc : Word
  n : Nat
  insns : Nat

/-- The checks of loop 1 at `pc`: whether it must stop there. -/
def mustStop (code : Nat → Byte) (code_len win pc : Word) : Bool :=
  pc > win && (pc ≥ code_len || code_len - pc < 2#32 ||
    ((fetchHalf code pc).extractLsb' 0 2 == 3#2 && code_len - pc < 4#32))

/-- Decode the instruction at the pc into the two slots at the cursor. -/
def Ahead.decoded (a : Ahead) (i : Insn) : Pair :=
  decodeOne ⟨a.block a.w, a.block (a.w + 1)⟩ i a.pc

/-- The buffer with the two slots at the cursor written. -/
def Ahead.wrote (a : Ahead) (d : Pair) : Block := (a.block.set a.w d.head).set (a.w + 1) d.tail

/-- An iteration of loop 1 past its checks: the variables after it, and whether it breaks.  A plain
jump leaves no record, a linking one leaves its link as a `LUI`. -/
def Ahead.lower (a : Ahead) (i : Insn) : Ahead × Bool :=
  let d := a.decoded i
  let op := d.head.op.toNat
  if op = RISCV_OP_JAL then
    let target := d.tail.imm
    if d.head.rd ≠ 0#8 then
      ({ block := a.wrote ((d.op RISCV_OP_LUI).imm (a.pc + i.width)), w := a.w + 2,
         last_w := a.w, pc := target, n := a.n + 1, insns := a.insns + 1 }, false)
    else ({ a with block := a.wrote d, pc := target, insns := a.insns + 1 }, false)
  else
    ({ block := a.wrote d, w := a.w + (if opHasImm op then 2 else 1), last_w := a.w,
       pc := a.pc + i.width, n := a.n + 1, insns := a.insns + 1 }, isTerminator op)

/-- Loop 1, with `lim - insns` instructions left. -/
def decodeAhead (code : Nat → Byte) (code_len win : Word) : Nat → Ahead → Ahead
  | 0, a => a
  | left + 1, a =>
    if mustStop code code_len win a.pc then a
    else
      match a.lower (fetch code a.pc) with
      | (a, true) => a
      | (a, false) => decodeAhead code code_len win left a

/-- The trap of a trap op. -/
def trapOf (op : Nat) : Trap :=
  if op = RISCV_OP_ECALL then .ecall else if op = RISCV_OP_EBREAK then .ebreak else .illegal

/-- A trap that the evaluator left to the loop: the run before it, what the handler will see, where
to resume, and the count and buffer of the round. -/
structure Pending (H : Type) where
  r : Run H
  t : Trap
  last_pc : Word
  inst : Word
  end_pc : Word
  insns : Nat
  block : Block

/-- How a round of the outer loop goes on. -/
inductive Round (H : Type) where
  | empty
  | next (r : Run H) (k : Nat) (block : Block)
  | trap (p : Pending H)
  | stop (r : Run H) (k : Nat)

/-- Loop 1 from `s->pc`. -/
def ahead (code : Buf) (code_len win : Word) (lim : Nat) (block : Block) (r : Run H) : Ahead :=
  let start : Ahead := ⟨block, 0, 0, r.s.pc, 0, 0⟩
  if code = 0 then start else decodeAhead (r.s.mem code) code_len win lim start

/-- A round up to its trap: decode ahead from `s->pc`, and evaluate. -/
def beforeTrap (h : Hooks H) (eval : EvalFn H) (code : Buf) (code_len win : Word) (lim : Nat)
    (block : Block) (r : Run H) : Round H :=
  let run_pc := r.s.pc
  let last_pc := r.s.pc
  let a := ahead code code_len win lim block r
  if a.insns = 0 then .empty
  else
    let end_pc := a.pc
    let r := r.setPc end_pc
    if a.n = 0 then .next r a.insns a.block
    else
      let block := a.block.set a.w { a.block a.w with op := opByte RISCV_OP_END }
      let (r, ran) := eval h r block
      if ran < a.n then
        let (pc, done) := fixupPc (r.s.mem code) ran lim run_pc 0 0
        .next (r.setPc pc) done block
      else
        let term := (block a.last_w).op.toNat
        if isTrap term then
          .trap ⟨r, trapOf term, last_pc, (block (a.last_w + 1)).imm, end_pc, a.insns, block⟩
        else .next r a.insns block

/-- The state that a handler is given. -/
def Pending.fault (p : Pending H) : Run H := p.r.fault p.last_pc p.inst

/-- One round: a trap sets `state->pc` and `state->inst`, calls its handler, and resumes after the
run unless the handler stops. -/
def round (h : Hooks H) (eval : EvalFn H) (code : Buf) (code_len win : Word) (lim : Nat)
    (block : Block) (r : Run H) : Round H :=
  match beforeTrap h eval code code_len win lim block r with
  | .trap p =>
    let (r, stop) := p.fault.trap h p.t
    if stop then .stop r p.insns else .next (r.setPc p.end_pc) p.insns p.block
  | o => o

/-- The outer loop.  An evaluator that stops before its first record makes no progress, so the
rounds are a fuel. -/
def loopFrom (h : Hooks H) (eval : EvalFn H) (code : Buf) (code_len win : Word) (max : Nat) :
    Nat → Block → Run H → Nat → Result H
  | 0, _, r, k => ⟨r, k, if k < max then .running else .budget⟩
  | rounds + 1, block, r, k =>
    if k < max then
      match round h eval code code_len win (min (max - k) RISCV_BLOCK_MAX) block r with
      | .empty => ⟨r, k, .fetch⟩
      | .next r n block => loopFrom h eval code code_len win max rounds block r (k + n)
      | .trap p => ⟨p.r, k + p.insns, .trap⟩
      | .stop r n => ⟨r, k + n, .trap⟩
    else ⟨r, k, .budget⟩

/-- `win`: the last pc at which a 4-byte fetch is in bounds. -/
def winOf (code_len : Word) : Word := if code_len ≥ 4#32 then code_len - 4#32 else 0#32

/-- `RiscvEmulatorLoop` of `purvs.c`; `block` is what the stack held. -/
def riscvEmulatorLoop (h : Hooks H) (eval : EvalFn H) (block : Block) (r : Run H) (max : Nat) :
    Result H :=
  loopFrom h eval r.s.readonly.ptr r.s.readonly.len (winOf r.s.readonly.len) max max block r 0

end Purv.Purvs
