import Purv.State

/-!
# RV32IM, as the unprivileged specification has it

The instructions, their encodings and their effect, stated with integers, bytes and offsets and
independently of any engine.

* `Instr`, `encode` — the user-level instructions of RV32I and RV32M (with `FENCE`, `FENCE.I`)
  and their 32-bit words;
* `AluOp.eval`, `MulOp.eval`, `Cond.eval` — the operations on signed and unsigned values;
* `load`, `store` — little-endian memory over the two regions.  What the engine adds is here
  too: a load into `x0` makes no access, an access that misses the regions is the callback's;
* `step` — one instruction: the state it leaves, the next pc, and whether a handler stopped.
-/

namespace Purv.Isa

open Bits

variable {H : Type}

/-! ## Instructions -/

/-- Branch conditions. -/
inductive Cond where
  | eq
  | ne
  | lt
  | ge
  | ltu
  | geu
  deriving DecidableEq, Repr

/-- `LB`, `LH`, `LW`, `LBU`, `LHU`. -/
inductive LoadKind where
  | b
  | h
  | w
  | bu
  | hu
  deriving DecidableEq, Repr

/-- `SB`, `SH`, `SW`. -/
inductive StoreKind where
  | b
  | h
  | w
  deriving DecidableEq, Repr

/-- The register-register operations of RV32I; the immediate forms use all but `sub`. -/
inductive AluOp where
  | add
  | sub
  | sll
  | slt
  | sltu
  | xor
  | srl
  | sra
  | or
  | and
  deriving DecidableEq, Repr

/-- The register-immediate operations with a 12-bit immediate. -/
inductive ImmOp where
  | addi
  | slti
  | sltiu
  | xori
  | ori
  | andi
  deriving DecidableEq, Repr

/-- The register-immediate shifts. -/
inductive ShiftOp where
  | slli
  | srli
  | srai
  deriving DecidableEq, Repr

/-- RV32M. -/
inductive MulOp where
  | mul
  | mulh
  | mulhsu
  | mulhu
  | div
  | divu
  | rem
  | remu
  deriving DecidableEq, Repr

/-- The user-level instructions.  `off` of a jump or branch is the offset without its low zero
bit. -/
inductive Instr where
  | lui (rd : Reg) (imm : BitVec 20)
  | auipc (rd : Reg) (imm : BitVec 20)
  | jal (rd : Reg) (off : BitVec 20)
  | jalr (rd rs1 : Reg) (imm : BitVec 12)
  | branch (c : Cond) (rs1 rs2 : Reg) (off : BitVec 12)
  | load (k : LoadKind) (rd rs1 : Reg) (imm : BitVec 12)
  | store (k : StoreKind) (rs1 rs2 : Reg) (imm : BitVec 12)
  | opImm (op : ImmOp) (rd rs1 : Reg) (imm : BitVec 12)
  | shiftImm (op : ShiftOp) (rd rs1 : Reg) (shamt : BitVec 5)
  | op (op : AluOp) (rd rs1 rs2 : Reg)
  | mulDiv (op : MulOp) (rd rs1 rs2 : Reg)
  | fence (fields : BitVec 12)
  | fenceI (fields : BitVec 12)
  | ecall
  | ebreak
  deriving DecidableEq, Repr

/-! ## Encodings -/

/-- The R format, whose six fields the other formats share out differently. -/
def encodeR (f7 : BitVec 7) (rs2 rs1 : Reg) (f3 : BitVec 3) (rd : Reg) (op : BitVec 7) : Word :=
  place f7 25 ||| place rs2 20 ||| place rs1 15 ||| place f3 12 ||| place rd 7 ||| place op 0

/-- `imm[11:0] rs1 funct3 rd opcode`. -/
def encodeI (imm : BitVec 12) (rs1 : Reg) (f3 : BitVec 3) (rd : Reg) (op : BitVec 7) : Word :=
  encodeR (imm.extractLsb' 5 7) (imm.extractLsb' 0 5) rs1 f3 rd op

/-- `imm[11:5] rs2 rs1 funct3 imm[4:0] opcode`. -/
def encodeS (imm : BitVec 12) (rs2 rs1 : Reg) (f3 : BitVec 3) (op : BitVec 7) : Word :=
  encodeR (imm.extractLsb' 5 7) rs2 rs1 f3 (imm.extractLsb' 0 5) op

/-- `imm[12|10:5] rs2 rs1 funct3 imm[4:1|11] opcode`, of `off = imm[12:1]`. -/
def encodeB (off : BitVec 12) (rs2 rs1 : Reg) (f3 : BitVec 3) (op : BitVec 7) : Word :=
  encodeR (cat 7 (off.extractLsb' 11 1) (off.extractLsb' 4 6)) rs2 rs1 f3
    (cat 5 (off.extractLsb' 0 4) (off.extractLsb' 10 1)) op

/-- `imm[31:12] rd opcode`, of `imm = imm[31:12]`. -/
def encodeU (imm : BitVec 20) (rd : Reg) (op : BitVec 7) : Word :=
  encodeR (imm.extractLsb' 13 7) (imm.extractLsb' 8 5) (imm.extractLsb' 3 5) (imm.extractLsb' 0 3)
    rd op

/-- `imm[20|10:1|11|19:12] rd opcode`, of `off = imm[20:1]`. -/
def encodeJ (off : BitVec 20) (rd : Reg) (op : BitVec 7) : Word :=
  encodeR (cat 7 (off.extractLsb' 19 1) (off.extractLsb' 4 6))
    (cat 5 (off.extractLsb' 0 4) (off.extractLsb' 10 1)) (off.extractLsb' 14 5)
    (off.extractLsb' 11 3) rd op

/-- The value of an upper immediate. -/
def upper (imm : BitVec 20) : Word := cat 32 imm 0#12

/-- The byte offset of a branch. -/
def branchOffset (off : BitVec 12) : Word := (cat 13 off 0#1).signExtend 32

/-- The byte offset of a jump. -/
def jalOffset (off : BitVec 20) : Word := (cat 21 off 0#1).signExtend 32

def Cond.funct3 : Cond → BitVec 3
  | .eq => 0#3
  | .ne => 1#3
  | .lt => 4#3
  | .ge => 5#3
  | .ltu => 6#3
  | .geu => 7#3

def LoadKind.funct3 : LoadKind → BitVec 3
  | .b => 0#3
  | .h => 1#3
  | .w => 2#3
  | .bu => 4#3
  | .hu => 5#3

def StoreKind.funct3 : StoreKind → BitVec 3
  | .b => 0#3
  | .h => 1#3
  | .w => 2#3

def AluOp.funct3 : AluOp → BitVec 3
  | .add | .sub => 0#3
  | .sll => 1#3
  | .slt => 2#3
  | .sltu => 3#3
  | .xor => 4#3
  | .srl | .sra => 5#3
  | .or => 6#3
  | .and => 7#3

def AluOp.funct7 : AluOp → BitVec 7
  | .sub | .sra => 0x20#7
  | _ => 0#7

/-- The operation of an immediate form. -/
def ImmOp.op : ImmOp → AluOp
  | .addi => .add
  | .slti => .slt
  | .sltiu => .sltu
  | .xori => .xor
  | .ori => .or
  | .andi => .and

/-- The operation of an immediate shift. -/
def ShiftOp.op : ShiftOp → AluOp
  | .slli => .sll
  | .srli => .srl
  | .srai => .sra

def MulOp.funct3 : MulOp → BitVec 3
  | .mul => 0#3
  | .mulh => 1#3
  | .mulhsu => 2#3
  | .mulhu => 3#3
  | .div => 4#3
  | .divu => 5#3
  | .rem => 6#3
  | .remu => 7#3

/-- The word of an instruction. -/
def encode : Instr → Word
  | .lui rd imm => encodeU imm rd 0x37#7
  | .auipc rd imm => encodeU imm rd 0x17#7
  | .jal rd off => encodeJ off rd 0x6f#7
  | .jalr rd rs1 imm => encodeI imm rs1 0#3 rd 0x67#7
  | .branch c rs1 rs2 off => encodeB off rs2 rs1 c.funct3 0x63#7
  | .load k rd rs1 imm => encodeI imm rs1 k.funct3 rd 0x03#7
  | .store k rs1 rs2 imm => encodeS imm rs2 rs1 k.funct3 0x23#7
  | .opImm o rd rs1 imm => encodeI imm rs1 o.op.funct3 rd 0x13#7
  | .shiftImm o rd rs1 sh => encodeR o.op.funct7 sh rs1 o.op.funct3 rd 0x13#7
  | .op o rd rs1 rs2 => encodeR o.funct7 rs2 rs1 o.funct3 rd 0x33#7
  | .mulDiv o rd rs1 rs2 => encodeR 1#7 rs2 rs1 o.funct3 rd 0x33#7
  | .fence fields => encodeI fields 0#5 0#3 0#5 0x0f#7
  | .fenceI fields => encodeI fields 0#5 1#3 0#5 0x0f#7
  | .ecall => encodeI 0#12 0#5 0#3 0#5 0x73#7
  | .ebreak => encodeI 1#12 0#5 0#3 0#5 0x73#7

/-! ## Operations -/

def AluOp.eval (a b : Word) : AluOp → Word
  | .add => BitVec.ofNat 32 (a.toNat + b.toNat)
  | .sub => BitVec.ofInt 32 (a.toInt - b.toInt)
  | .sll => BitVec.ofNat 32 (a.toNat * 2 ^ (b.toNat % 32))
  | .slt => if a.toInt < b.toInt then 1#32 else 0#32
  | .sltu => if a.toNat < b.toNat then 1#32 else 0#32
  | .xor => a ^^^ b
  | .srl => BitVec.ofNat 32 (a.toNat / 2 ^ (b.toNat % 32))
  | .sra => BitVec.ofInt 32 (a.toInt / 2 ^ (b.toNat % 32))
  | .or => a ||| b
  | .and => a &&& b

def MulOp.eval (a b : Word) : MulOp → Word
  | .mul => BitVec.ofInt 32 (a.toInt * b.toInt)
  | .mulh => BitVec.ofInt 32 (a.toInt * b.toInt / 2 ^ 32)
  | .mulhsu => BitVec.ofInt 32 (a.toInt * b.toNat / 2 ^ 32)
  | .mulhu => BitVec.ofNat 32 (a.toNat * b.toNat / 2 ^ 32)
  | .div =>
    if b.toInt = 0 then BitVec.ofInt 32 (-1)
    else if a.toInt = -2 ^ 31 ∧ b.toInt = -1 then BitVec.ofInt 32 (-2 ^ 31)
    else BitVec.ofInt 32 (a.toInt.tdiv b.toInt)
  | .divu => if b.toNat = 0 then BitVec.ofNat 32 (2 ^ 32 - 1) else BitVec.ofNat 32 (a.toNat / b.toNat)
  | .rem =>
    if b.toInt = 0 then a
    else if a.toInt = -2 ^ 31 ∧ b.toInt = -1 then 0#32
    else BitVec.ofInt 32 (a.toInt.tmod b.toInt)
  | .remu => if b.toNat = 0 then a else BitVec.ofNat 32 (a.toNat % b.toNat)

def Cond.eval (a b : Word) : Cond → Bool
  | .eq => decide (a.toNat = b.toNat)
  | .ne => decide (a.toNat ≠ b.toNat)
  | .lt => decide (a.toInt < b.toInt)
  | .ge => decide (b.toInt ≤ a.toInt)
  | .ltu => decide (a.toNat < b.toNat)
  | .geu => decide (b.toNat ≤ a.toNat)

/-! ## Memory -/

/-- Bytes of an access. -/
def LoadKind.size : LoadKind → Nat
  | .b | .bu => 1
  | .h | .hu => 2
  | .w => 4

def StoreKind.size : StoreKind → Nat
  | .b => 1
  | .h => 2
  | .w => 4

/-- `LB`, `LH` and `LW` extend the sign of the `8 * size` bits read, the others do not. -/
def LoadKind.extend (k : LoadKind) (v : Nat) : Word :=
  match k with
  | .b => BitVec.ofInt 32 (BitVec.ofNat 8 v).toInt
  | .h => BitVec.ofInt 32 (BitVec.ofNat 16 v).toInt
  | .w => BitVec.ofNat 32 v
  | .bu | .hu => BitVec.ofNat 32 v

/-- The little-endian value of the first `n` bytes of `f`. -/
def littleEndian (f : Nat → Byte) : Nat → Nat
  | 0 => 0
  | n + 1 => (f 0).toNat + 256 * littleEndian (fun i => f (i + 1)) n

/-- `[a, a + n)` lies in the region, which runs `len` bytes from its base. -/
def Maps (g : Region) (a : Word) (n : Nat) : Prop := (a - g.base).toNat + n ≤ g.len.toNat

instance (g : Region) (a : Word) (n : Nat) : Decidable (Maps g a n) :=
  inferInstanceAs (Decidable (_ ≤ _))

/-- The bytes of the region `g` from guest address `a` on. -/
def bytesAt (s : State H) (g : Region) (a : Word) (i : Nat) : Byte :=
  s.mem g.ptr ((a - g.base).toNat + i)

/-- A load: the writable region first, then the read-only one, then the callback. -/
def load (h : Hooks H) (r : Run H) (k : LoadKind) (rd : Reg) (a : Word) : Run H :=
  if rd = 0#5 then r
  else if Maps r.s.writable a k.size then
    r.wr rd (k.extend (littleEndian (bytesAt r.s r.s.writable a) k.size))
  else if Maps r.s.readonly a k.size then
    r.wr rd (k.extend (littleEndian (bytesAt r.s r.s.readonly a) k.size))
  else
    let (r, v) := r.callback h .load a 0#32
    r.wr rd (k.extend (v.toNat % 2 ^ (8 * k.size)))

/-- The memory with the low `n` bytes of `v` at guest address `a` of the writable region. -/
def storeBytes (s : State H) (a v : Word) (n : Nat) : Buf → Nat → Byte := fun b o =>
  let off := (a - s.writable.base).toNat
  if b = s.writable.ptr ∧ off ≤ o ∧ o < off + n then BitVec.ofNat 8 (v.toNat / 256 ^ (o - off))
  else s.mem b o

/-- A store: into the writable region, or the callback's. -/
def store (h : Hooks H) (r : Run H) (k : StoreKind) (a v : Word) : Run H :=
  if Maps r.s.writable a k.size then { r with s := { r.s with mem := storeBytes r.s a v k.size } }
  else (r.callback h .store a v).1

/-! ## One instruction -/

/-- Register `i`; `x0` is zero. -/
def reg (r : Run H) (i : Reg) : Word := if i = 0#5 then 0#32 else r.s.x i

/-- A trap at `pc`: the handler sees the pc and the word, and may stop there. -/
def trap (h : Hooks H) (r : Run H) (pc w : Word) (t : Trap) : Run H × Word × Bool :=
  let (r, stop) := (r.fault pc w).trap h t
  (r, if stop then pc else pc + 4#32, stop)

/-- The effect of `i` at `pc`: the run after it, the next pc, and whether a handler stopped. -/
def step (h : Hooks H) (r : Run H) (pc : Word) (i : Instr) : Run H × Word × Bool :=
  match i with
  | .lui rd imm => (r.wr rd (upper imm), pc + 4#32, false)
  | .auipc rd imm => (r.wr rd (pc + upper imm), pc + 4#32, false)
  | .jal rd off => (r.wr rd (pc + 4#32), pc + jalOffset off, false)
  | .jalr rd rs1 imm =>
    (r.wr rd (pc + 4#32), (reg r rs1 + imm.signExtend 32) &&& ~~~1#32, false)
  | .branch c rs1 rs2 off =>
    (r, if c.eval (reg r rs1) (reg r rs2) then pc + branchOffset off else pc + 4#32, false)
  | .load k rd rs1 imm => (load h r k rd (reg r rs1 + imm.signExtend 32), pc + 4#32, false)
  | .store k rs1 rs2 imm =>
    (store h r k (reg r rs1 + imm.signExtend 32) (reg r rs2), pc + 4#32, false)
  | .opImm o rd rs1 imm => (r.wr rd (o.op.eval (reg r rs1) (imm.signExtend 32)), pc + 4#32, false)
  | .shiftImm o rd rs1 sh => (r.wr rd (o.op.eval (reg r rs1) (sh.setWidth 32)), pc + 4#32, false)
  | .op o rd rs1 rs2 => (r.wr rd (o.eval (reg r rs1) (reg r rs2)), pc + 4#32, false)
  | .mulDiv o rd rs1 rs2 => (r.wr rd (o.eval (reg r rs1) (reg r rs2)), pc + 4#32, false)
  | .fence _ => (r, pc + 4#32, false)
  | .fenceI _ => (r, pc + 4#32, false)
  | .ecall => trap h r pc (encode .ecall) .ecall
  | .ebreak => trap h r pc (encode .ebreak) .ebreak

end Purv.Isa
