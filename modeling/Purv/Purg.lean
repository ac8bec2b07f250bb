import Purv.Engine

/-!
# The generated engine (`purg.c`)

`RiscvEmulatorLoop` executes one instruction for each call.  The engine has no memory of its own:
it fetches, loads and stores through hooks of the host, and calls others for traps.

* `State`, `Hooks` — `RiscvEmulatorState_t`, and what the host implements;
* `ciDecoderImm` .. `jDecoderImm` — the unions that untangle immediates;
* `executeCompressed` — the switch over 16-bit instructions;
* `execute` — the switch over 32-bit instructions;
* `riscvEmulatorLoop` — fetch, execute, trap;
* `riscvEmulatorCreate`, `riscvEmulatorSetProgramCounter` — the public glue.

Signed sums and products wrap, as they do where the engine is compiled with `-fwrapv`.
-/

namespace Purv.Purg

open Bits

variable {M : Type}

/-! ## State and hooks -/

/-- `RiscvEmulatorState_t`, with the memory and the rest of the host that its hooks reach. -/
structure State (M : Type) where
  illegalinstruction : Bool
  programcounter : Word
  programcounternext : Word
  instruction : Word
  x : Reg → Word
  host : M

/-- The hooks that the host implements.  `load` answers with the bytes that it writes to
`destination`, the first one lowest; `store` is given what `source` points at. -/
structure Hooks (M : Type) where
  load : M → Word → Nat → M × Word
  store : M → Word → Word → Nat → M
  illegalInstruction : State M → State M
  handleECALL : State M → State M
  handleEBREAK : State M → State M

/-- `state->reg.x[i] = v`. -/
def State.setX (s : State M) (i : Reg) (v : Word) : State M :=
  { s with x := fun j => if j = i then v else s.x j }

/-- `if (rdnum != 0) { *rd = v; }`. -/
def State.wr (s : State M) (i : Reg) (v : Word) : State M :=
  if i = 0#5 then s else s.setX i v

/-- `state->programcounternext = pc`. -/
def State.jump (s : State M) (pc : Word) : State M := { s with programcounternext := pc }

/-- `state->trapflag.illegalinstruction = 1`. -/
def State.flag (s : State M) : State M := { s with illegalinstruction := true }

/-- `RiscvEmulatorLoad(address, destination, length)`: the state after it and the `length` bytes. -/
def State.load (k : Hooks M) (s : State M) (address : Word) (length : Nat) : State M × Word :=
  let (m, v) := k.load s.host address length
  ({ s with host := m }, v &&& (BitVec.ofNat 32 (2 ^ (8 * length) - 1)))

/-- `RiscvEmulatorStore(address, source, length)`. -/
def State.store (k : Hooks M) (s : State M) (address v : Word) (length : Nat) : State M :=
  { s with host := k.store s.host address v length }

/-- `ROM_ORIGIN`. -/
def ROM_ORIGIN : Word := 0x20000000#32

/-- `RiscvEmulatorInit`. -/
def riscvEmulatorInit (s : State M) (initial_sp : Word) : State M :=
  { (s.setX 2#5 initial_sp).setX 0#5 0#32 with
    programcounter := ROM_ORIGIN
    programcounternext := ROM_ORIGIN
    illegalinstruction := false }

/-- `RiscvEmulatorCreate` where `calloc` has room. -/
def riscvEmulatorCreate (host : M) (initial_sp : Word) : State M :=
  riscvEmulatorInit ⟨false, 0#32, 0#32, 0#32, fun _ => 0#32, host⟩ initial_sp

/-! ## Immediates -/

/-- `(int8_t)imm`, `(int16_t)imm`. -/
def int (n : Nat) (imm : Word) : Word := (imm.setWidth n).signExtend 32

/-- `RiscvInstructionTypeCIDecoderImm_u`, `RiscvInstructionTypeCBImmDecoderImm_u`. -/
def ciDecoderImm (c : Half) : Word :=
  (cat 6 (c.extractLsb' 12 1) (c.extractLsb' 2 5)).signExtend 32

/-- `RiscvInstructionTypeCIWDecoderImm_u`. -/
def ciwDecoderImm (c : Half) : Word :=
  (cat 10 (c.extractLsb' 7 4) (cat 6 (c.extractLsb' 11 2) (cat 4 (c.extractLsb' 5 1)
    (cat 3 (c.extractLsb' 6 1) 0#2)))).setWidth 32

/-- `RiscvInstructionTypeCLDecoderImm_u`, `RiscvInstructionTypeCSDecoderImm_u`. -/
def clDecoderImm (c : Half) : Word :=
  (cat 7 (c.extractLsb' 5 1) (cat 6 (c.extractLsb' 10 3) (cat 3 (c.extractLsb' 6 1)
    0#2))).setWidth 32

/-- `RiscvInstructionTypeCBDecoderImm_u`. -/
def cbDecoderImm (c : Half) : Word :=
  (cat 9 (c.extractLsb' 12 1) (cat 8 (c.extractLsb' 5 2) (cat 6 (c.extractLsb' 2 1)
    (cat 5 (c.extractLsb' 10 2) (cat 3 (c.extractLsb' 3 2) 0#1))))).signExtend 32

/-- `RiscvInstructionTypeCJDecoderImm_u`. -/
def cjDecoderImm (c : Half) : Word :=
  (cat 12 (c.extractLsb' 12 1) (cat 11 (c.extractLsb' 8 1) (cat 10 (c.extractLsb' 9 2)
    (cat 8 (c.extractLsb' 6 1) (cat 7 (c.extractLsb' 7 1) (cat 6 (c.extractLsb' 2 1)
      (cat 5 (c.extractLsb' 11 1) (cat 4 (c.extractLsb' 3 3) 0#1)))))))).signExtend 32

/-- `RiscvInstructionTypeCILwspDecoderImm_u`. -/
def cilwspDecoderImm (c : Half) : Word :=
  (cat 8 (c.extractLsb' 2 2) (cat 6 (c.extractLsb' 12 1) (cat 5 (c.extractLsb' 4 3)
    0#2))).setWidth 32

/-- `RiscvInstructionTypeCSSDecoderImm_u`. -/
def cssDecoderImm (c : Half) : Word :=
  (cat 8 (c.extractLsb' 7 2) (cat 6 (c.extractLsb' 9 4) 0#2)).setWidth 32

/-- `RiscvInstructionTypeCIAddi16spDecoderImm_u`. -/
def ciAddi16spDecoderImm (c : Half) : Word :=
  (cat 10 (c.extractLsb' 12 1) (cat 9 (c.extractLsb' 3 2) (cat 7 (c.extractLsb' 5 1)
    (cat 6 (c.extractLsb' 2 1) (cat 5 (c.extractLsb' 6 1) 0#4))))).signExtend 32

/-- `RiscvInstructionTypeCILuiDecoderImm_u`. -/
def ciLuiDecoderImm (c : Half) : Word :=
  (cat 18 (c.extractLsb' 12 1) (cat 17 (c.extractLsb' 2 5) 0#12)).signExtend 32

/-- `itype.imm`. -/
def iImm (w : Word) : Word := (w.extractLsb' 20 12).signExtend 32

/-- `RiscvInstructionTypeSDecoderImm_u`. -/
def sDecoderImm (w : Word) : Word :=
  (cat 12 (w.extractLsb' 25 7) (w.extractLsb' 7 5)).signExtend 32

/-- `RiscvInstructionTypeBDecoderImm_u`. -/
def bDecoderImm (w : Word) : Word :=
  (cat 13 (w.extractLsb' 31 1) (cat 12 (w.extractLsb' 7 1) (cat 11 (w.extractLsb' 25 6)
    (cat 5 (w.extractLsb' 8 4) 0#1)))).signExtend 32

/-- `RiscvInstructionTypeUDecoderImm_u`. -/
def uDecoderImm (w : Word) : Word := cat 32 (w.extractLsb' 12 20) 0#12

/-- `RiscvInstructionTypeJDecoderImm_u`. -/
def jDecoderImm (w : Word) : Word :=
  (cat 21 (w.extractLsb' 31 1) (cat 20 (w.extractLsb' 12 8) (cat 12 (w.extractLsb' 20 1)
    (cat 11 (w.extractLsb' 21 10) 0#1)))).signExtend 32

/-! ## 16-bit instructions -/

@[match_pattern] def OPCODE16_ADDI4SPN : Nat := 0b00000
@[match_pattern] def OPCODE16_LW : Nat := 0b01000
@[match_pattern] def OPCODE16_SW : Nat := 0b11000
@[match_pattern] def OPCODE16_ADDI : Nat := 0b00001
@[match_pattern] def OPCODE16_JAL : Nat := 0b00101
@[match_pattern] def OPCODE16_LI : Nat := 0b01001
@[match_pattern] def OPCODE16_LUI_ADDI16SP : Nat := 0b01101
@[match_pattern] def OPCODE16_MISCALU : Nat := 0b10001
@[match_pattern] def OPCODE16_J : Nat := 0b10101
@[match_pattern] def OPCODE16_BEQZ : Nat := 0b11001
@[match_pattern] def OPCODE16_BNEZ : Nat := 0b11101
@[match_pattern] def OPCODE16_SLLI : Nat := 0b00010
@[match_pattern] def OPCODE16_LWSP : Nat := 0b01010
@[match_pattern] def OPCODE16_JALR_MV_ADD : Nat := 0b10010
@[match_pattern] def OPCODE16_SWSP : Nat := 0b11010

def OPCODE16_QUADRANT_INVALID : BitVec 2 := 0b11#2

def FUNCT3_FUNCT2_SRLI : BitVec 5 := 0b10000#5
def FUNCT3_FUNCT2_SRAI : BitVec 5 := 0b10001#5
def FUNCT3_FUNCT2_ANDI : BitVec 5 := 0b10010#5

def FUNCT6_FUNCT2_SUB : BitVec 8 := 0b10001100#8
def FUNCT6_FUNCT2_XOR : BitVec 8 := 0b10001101#8
def FUNCT6_FUNCT2_OR : BitVec 8 := 0b10001110#8
def FUNCT6_FUNCT2_AND : BitVec 8 := 0b10001111#8

def FUNCT4_MV : BitVec 4 := 0b1000#4

/-- `rdp + 8`, `rs1p + 8`, `rs2p + 8`. -/
def regp (c : Half) (lo : Nat) : Reg := (c.extractLsb' lo 3).setWidth 5 + 8#5

/-- A shift by `(uint8_t)imm`; `none` for a count that the language gives no meaning. -/
def shift (f : Nat → Word) (imm : Word) : Option Word :=
  if (imm.setWidth 8).toNat < 32 then some (f (imm.setWidth 8).toNat) else none

/-- `case OPCODE16_LUI_ADDI16SP`. -/
def executeLuiAddi16sp (s : State M) (c : Half) : State M :=
  let rdnum : Reg := c.extractLsb' 7 5
  if rdnum = 2#5 then
    if ciAddi16spDecoderImm c = 0#32 then s
    else s.setX rdnum (s.x rdnum + ciAddi16spDecoderImm c)
  else if rdnum = 0#5 then s
  else s.setX rdnum (ciLuiDecoderImm c)

/-- `case OPCODE16_MISCALU`. -/
def executeMiscAlu (s : State M) (c : Half) : Option (State M) :=
  let funct3_funct2 : BitVec 5 := cat 5 (c.extractLsb' 13 3) (c.extractLsb' 10 2)
  let funct6_funct2 : BitVec 8 := cat 8 (c.extractLsb' 10 6) (c.extractLsb' 5 2)
  let rd := regp c 7
  let rs2 := regp c 2
  let imm := ciDecoderImm c
  if funct3_funct2 = FUNCT3_FUNCT2_SRLI then
    (shift (fun n => s.x rd >>> n) imm).map (s.wr rd)
  else if funct3_funct2 = FUNCT3_FUNCT2_SRAI then
    (shift (fun n => (s.x rd).sshiftRight n) imm).map (s.wr rd)
  else if funct3_funct2 = FUNCT3_FUNCT2_ANDI then some (s.wr rd (s.x rd &&& int 8 imm))
  else if funct6_funct2 = FUNCT6_FUNCT2_SUB then some (s.wr rd (s.x rd - s.x rs2))
  else if funct6_funct2 = FUNCT6_FUNCT2_XOR then some (s.wr rd (s.x rd ^^^ s.x rs2))
  else if funct6_funct2 = FUNCT6_FUNCT2_OR then some (s.wr rd (s.x rd ||| s.x rs2))
  else if funct6_funct2 = FUNCT6_FUNCT2_AND then some (s.wr rd (s.x rd &&& s.x rs2))
  else some s.flag

/-- `case OPCODE16_JALR_MV_ADD`. -/
def executeJalrMvAdd (k : Hooks M) (s : State M) (c : Half) : State M :=
  let rdnum : Reg := c.extractLsb' 7 5
  let rs2num : Reg := c.extractLsb' 2 5
  if c.extractLsb' 12 4 = FUNCT4_MV then
    if rs2num = 0#5 then s.jump (s.x rdnum &&& 0xfffffffe#32)
    else s.wr rdnum (s.x rs2num)
  else if rdnum = 0#5 ∧ rs2num = 0#5 then k.handleEBREAK s
  else if rs2num = 0#5 then
    (s.setX 1#5 (s.programcounter + 2#32)).jump (s.x rdnum &&& 0xfffffffe#32)
  else s.wr rdnum (s.x rdnum + s.x rs2num)

/-- The 16-bit instruction in `state->instruction.L`. -/
def executeCompressed (k : Hooks M) (s : State M) : Option (State M) :=
  let c : Half := s.instruction.setWidth 16
  let rd : Reg := c.extractLsb' 7 5
  let rdp := regp c 2
  let rsp := regp c 7
  match (cat 5 (c.extractLsb' 13 3) (c.extractLsb' 0 2)).toNat with
  | OPCODE16_ADDI4SPN =>
    if ciwDecoderImm c ≠ 0#32 then some (s.wr rdp (s.x 2#5 + ciwDecoderImm c)) else some s.flag
  | OPCODE16_LW =>
    let (s', v) := s.load k (s.x rsp + clDecoderImm c) 4
    some (s'.setX rdp v)
  | OPCODE16_SW => some (s.store k (s.x rsp + clDecoderImm c) (s.x rdp) 4)
  | OPCODE16_ADDI => some (s.wr rd (s.x rd + int 8 (ciDecoderImm c)))
  | OPCODE16_JAL =>
    some ((s.setX 1#5 (s.programcounter + 2#32)).jump
      (s.programcounter + int 16 (cjDecoderImm c)))
  | OPCODE16_LI => some (s.wr rd (int 8 (ciDecoderImm c)))
  | OPCODE16_LUI_ADDI16SP => some (executeLuiAddi16sp s c)
  | OPCODE16_MISCALU => executeMiscAlu s c
  | OPCODE16_J => some (s.jump (s.programcounter + int 16 (cjDecoderImm c)))
  | OPCODE16_BEQZ =>
    some (if s.x rsp = 0#32 then s.jump (s.programcounter + int 16 (cbDecoderImm c)) else s)
  | OPCODE16_BNEZ =>
    some (if s.x rsp ≠ 0#32 then s.jump (s.programcounter + int 16 (cbDecoderImm c)) else s)
  | OPCODE16_SLLI =>
    if rd = 0#5 then some s
    else (shift (fun n => s.x rd <<< n) (ciDecoderImm c)).map (s.setX rd)
  | OPCODE16_LWSP =>
    if rd = 0#5 then some s
    else
      let (s', v) := s.load k (s.x 2#5 + cilwspDecoderImm c) 4
      some (s'.setX rd v)
  | OPCODE16_JALR_MV_ADD => some (executeJalrMvAdd k s c)
  | OPCODE16_SWSP => some (s.store k (s.x 2#5 + cssDecoderImm c) (s.x (c.extractLsb' 2 5)) 4)
  | _ => some s.flag

/-! ## 32-bit instructions -/

@[match_pattern] def OPCODE32_LOAD : Nat := 0b0000011
@[match_pattern] def OPCODE32_MISCMEM : Nat := 0b0001111
@[match_pattern] def OPCODE32_IMMEDIATE : Nat := 0b0010011
@[match_pattern] def OPCODE32_ADDUPPERIMMEDIATE2PC : Nat := 0b0010111
@[match_pattern] def OPCODE32_STORE : Nat := 0b0100011
@[match_pattern] def OPCODE32_OPERATION : Nat := 0b0110011
@[match_pattern] def OPCODE32_LOADUPPERIMMEDIATE : Nat := 0b0110111
@[match_pattern] def OPCODE32_BRANCH : Nat := 0b1100011
@[match_pattern] def OPCODE32_JUMPANDLINKREGISTER : Nat := 0b1100111
@[match_pattern] def OPCODE32_JUMPANDLINK : Nat := 0b1101111
@[match_pattern] def OPCODE32_SYSTEM : Nat := 0b1110011

@[match_pattern] def FUNCT7_FUNCT3_OPERATION_ADD : Nat := 0b0000000000
@[match_pattern] def FUNCT7_FUNCT3_OPERATION_SUB : Nat := 0b0100000000
@[match_pattern] def FUNCT7_FUNCT3_OPERATION_SLL : Nat := 0b0000000001
@[match_pattern] def FUNCT7_FUNCT3_OPERATION_SLT : Nat := 0b0000000010
@[match_pattern] def FUNCT7_FUNCT3_OPERATION_SLTU : Nat := 0b0000000011
@[match_pattern] def FUNCT7_FUNCT3_OPERATION_XOR : Nat := 0b0000000100
@[match_pattern] def FUNCT7_FUNCT3_OPERATION_SRL : Nat := 0b0000000101
@[match_pattern] def FUNCT7_FUNCT3_OPERATION_SRA : Nat := 0b0100000101
@[match_pattern] def FUNCT7_FUNCT3_OPERATION_OR : Nat := 0b0000000110
@[match_pattern] def FUNCT7_FUNCT3_OPERATION_AND : Nat := 0b0000000111
@[match_pattern] def FUNCT7_FUNCT3_OPERATION_MUL : Nat := 0b0000001000
@[match_pattern] def FUNCT7_FUNCT3_OPERATION_MULH : Nat := 0b0000001001
@[match_pattern] def FUNCT7_FUNCT3_OPERATION_MULHSU : Nat := 0b0000001010
@[match_pattern] def FUNCT7_FUNCT3_OPERATION_MULHU : Nat := 0b0000001011
@[match_pattern] def FUNCT7_FUNCT3_OPERATION_DIV : Nat := 0b0000001100
@[match_pattern] def FUNCT7_FUNCT3_OPERATION_DIVU : Nat := 0b0000001101
@[match_pattern] def FUNCT7_FUNCT3_OPERATION_REM : Nat := 0b0000001110
@[match_pattern] def FUNCT7_FUNCT3_OPERATION_REMU : Nat := 0b0000001111

@[match_pattern] def IMM11_5_FUNCT3_IMMEDIATE_SLLI : Nat := 0b0000000001
@[match_pattern] def IMM11_5_FUNCT3_IMMEDIATE_SRLI : Nat := 0b0000000101
@[match_pattern] def IMM11_5_FUNCT3_IMMEDIATE_SRAI : Nat := 0b0100000101

/-- The switch over `funct7_3`; `none` for an unknown operation. -/
def operation (a b : Word) (funct7_3 : Nat) : Option Word :=
  match funct7_3 with
  | FUNCT7_FUNCT3_OPERATION_ADD => some (a + b)
  | FUNCT7_FUNCT3_OPERATION_SUB => some (a - b)
  | FUNCT7_FUNCT3_OPERATION_SLL => some (a <<< (b &&& 0b11111#32))
  | FUNCT7_FUNCT3_OPERATION_SLT => some (if a.slt b then 1#32 else 0#32)
  | FUNCT7_FUNCT3_OPERATION_SLTU => some (if a.ult b then 1#32 else 0#32)
  | FUNCT7_FUNCT3_OPERATION_XOR => some (a ^^^ b)
  | FUNCT7_FUNCT3_OPERATION_SRL => some (a >>> (b &&& 0b11111#32))
  | FUNCT7_FUNCT3_OPERATION_SRA => some (a.sshiftRight (b &&& 0b11111#32).toNat)
  | FUNCT7_FUNCT3_OPERATION_OR => some (a ||| b)
  | FUNCT7_FUNCT3_OPERATION_AND => some (a &&& b)
  | FUNCT7_FUNCT3_OPERATION_MUL => some (a * b)
  | FUNCT7_FUNCT3_OPERATION_MULH =>
    some (((a.signExtend 64 * b.signExtend 64).sshiftRight 32).setWidth 32)
  | FUNCT7_FUNCT3_OPERATION_MULHSU =>
    some (((a.signExtend 64 * b.setWidth 64).sshiftRight 32).setWidth 32)
  | FUNCT7_FUNCT3_OPERATION_MULHU =>
    some (((a.setWidth 64 * b.setWidth 64) >>> 32).setWidth 32)
  | FUNCT7_FUNCT3_OPERATION_DIV =>
    some (if b = 0#32 then -1#32
      else if a = 0x80000000#32 ∧ b = -1#32 then 0x80000000#32
      else a.sdiv b)
  | FUNCT7_FUNCT3_OPERATION_DIVU => some (if b = 0#32 then 0xffffffff#32 else a / b)
  | FUNCT7_FUNCT3_OPERATION_REM =>
    some (if b = 0#32 then a
      else if a = 0x80000000#32 ∧ b = -1#32 then 0#32
      else a.srem b)
  | FUNCT7_FUNCT3_OPERATION_REMU => some (if b = 0#32 then a else a % b)
  | _ => none

/-- The switch over `imm11_5funct3`. -/
def immediateShift (a : Word) (shamt : BitVec 5) (imm11_5funct3 : Nat) : Option Word :=
  match imm11_5funct3 with
  | IMM11_5_FUNCT3_IMMEDIATE_SLLI => some (a <<< shamt.toNat)
  | IMM11_5_FUNCT3_IMMEDIATE_SRLI => some (a >>> shamt.toNat)
  | IMM11_5_FUNCT3_IMMEDIATE_SRAI => some (a.sshiftRight shamt.toNat)
  | _ => none

/-- The switch over `itype.funct3` of the immediate instructions. -/
def immediateArith (a imm : Word) (funct3 : BitVec 3) : Option Word :=
  match funct3.toNat with
  | 0b000 => some (a + imm)
  | 0b010 => some (if a.slt imm then 1#32 else 0#32)
  | 0b011 => some (if a.ult imm then 1#32 else 0#32)
  | 0b100 => some (a ^^^ imm)
  | 0b110 => some (a ||| imm)
  | 0b111 => some (a &&& imm)
  | _ => none

/-- `case OPCODE32_IMMEDIATE`: a shift where `funct3` says so, else what its own switch makes of
it; an unknown shift is looked up there too. -/
def immediate (a : Word) (w : Word) : Option Word :=
  let funct3 : BitVec 3 := w.extractLsb' 12 3
  let shifted :=
    if funct3 = 0b001#3 ∨ funct3 = 0b101#3 then
      immediateShift a (w.extractLsb' 20 5) (cat 10 (w.extractLsb' 25 7) funct3).toNat
    else none
  match shifted with
  | some v => some v
  | none => immediateArith a (iImm w) funct3

/-- `length` of a load. -/
def loadLength (funct3 : BitVec 3) : Option Nat :=
  match funct3.toNat with
  | 0b000 => some 1
  | 0b100 => some 1
  | 0b001 => some 2
  | 0b101 => some 2
  | 0b010 => some 4
  | _ => none

/-- The cast of a loaded value. -/
def loadCast (value : Word) (funct3 : BitVec 3) : Word :=
  match funct3.toNat with
  | 0b000 => int 8 value
  | 0b100 => (value.setWidth 8).setWidth 32
  | 0b001 => int 16 value
  | 0b101 => (value.setWidth 16).setWidth 32
  | _ => value

/-- `length` of a store. -/
def storeLength (funct3 : BitVec 3) : Option Nat :=
  match funct3.toNat with
  | 0b010 => some 4
  | 0b001 => some 2
  | 0b000 => some 1
  | _ => none

/-- `executebranch`; `none` for an unknown condition. -/
def executebranch (a b : Word) (funct3 : BitVec 3) : Option Bool :=
  match funct3.toNat with
  | 0b000 => some (a == b)
  | 0b001 => some (a != b)
  | 0b101 => some (!a.slt b)
  | 0b111 => some (!a.ult b)
  | 0b100 => some (a.slt b)
  | 0b110 => some (a.ult b)
  | _ => none

/-- `if (detectedUnknownInstruction == 1) { state->trapflag.illegalinstruction = 1; }`. -/
def State.orFlag (s : State M) (i : Reg) : Option Word → State M
  | some v => s.wr i v
  | none => s.flag

/-- `case OPCODE32_LOAD`. -/
def executeLoad (k : Hooks M) (s : State M) (w : Word) : State M :=
  let rdnum : Reg := w.extractLsb' 7 5
  let funct3 : BitVec 3 := w.extractLsb' 12 3
  match loadLength funct3 with
  | none => s.flag
  | some length =>
    if rdnum = 0#5 then s
    else
      let (s', value) := s.load k (iImm w + s.x (w.extractLsb' 15 5)) length
      s'.setX rdnum (loadCast value funct3)

/-- The 32-bit instruction in `state->instruction`. -/
def execute (k : Hooks M) (s : State M) : State M :=
  let w := s.instruction
  let rd : Reg := w.extractLsb' 7 5
  let rs1 : Reg := w.extractLsb' 15 5
  let rs2 : Reg := w.extractLsb' 20 5
  let funct3 : BitVec 3 := w.extractLsb' 12 3
  match (w.extractLsb' 0 7).toNat with
  | OPCODE32_JUMPANDLINKREGISTER =>
    if funct3 = 0b000#3 then
      let target := (s.x rs1 + iImm w) &&& 0xfffffffe#32
      (s.wr rd s.programcounternext).jump target
    else s.flag
  | OPCODE32_OPERATION =>
    s.orFlag rd (operation (s.x rs1) (s.x rs2) (cat 10 (w.extractLsb' 25 7) funct3).toNat)
  | OPCODE32_IMMEDIATE => s.orFlag rd (immediate (s.x rs1) w)
  | OPCODE32_LOAD => executeLoad k s w
  | OPCODE32_STORE =>
    match storeLength funct3 with
    | none => s.flag
    | some length => s.store k (sDecoderImm w + s.x rs1) (s.x rs2) length
  | OPCODE32_BRANCH =>
    match executebranch (s.x rs1) (s.x rs2) funct3 with
    | none => s.flag
    | some true => s.jump (s.programcounter + bDecoderImm w)
    | some false => s
  | OPCODE32_ADDUPPERIMMEDIATE2PC => s.wr rd (s.programcounter + uDecoderImm w)
  | OPCODE32_LOADUPPERIMMEDIATE => s.wr rd (uDecoderImm w)
  | OPCODE32_JUMPANDLINK =>
    (s.wr rd s.programcounternext).jump (s.programcounter + jDecoderImm w)
  | OPCODE32_SYSTEM =>
    if rd = 0#5 ∧ funct3 = 0#3 ∧ rs1 = 0#5 then
      if w.extractLsb' 20 12 = 0#12 then k.handleECALL s
      else if w.extractLsb' 20 12 = 1#12 then k.handleEBREAK s
      else s.flag
    else s.flag
  | OPCODE32_MISCMEM =>
    -- a match leaves 255 in the `uint8_t`, so the second test is made after the first as well
    if rd = 0#5 ∧ funct3 = 0b000#3 ∧ rs1 = 0#5 then s
    else if rd = 0#5 ∧ funct3 = 0b001#3 ∧ rs1 = 0#5 then s
    else s.flag
  | _ => s.flag

/-! ## The loop -/

/-- The hook for a set trap flag, and the flag cleared. -/
def trap (k : Hooks M) (s : State M) : State M :=
  if s.illegalinstruction then { k.illegalInstruction s with illegalinstruction := false } else s

/-- `instruction` with what a fetch of 16 bits wrote to its upper half. -/
def State.fetchLow (k : Hooks M) (s : State M) : State M :=
  let s := { s with programcounter := s.programcounternext }
  let (s', v) := s.load k s.programcounter 2
  { s' with instruction := v, programcounternext := s'.programcounternext + 2#32 }

/-- The upper half of a 32-bit instruction. -/
def State.fetchHigh (k : Hooks M) (s : State M) : State M :=
  let (s', v) := s.load k s.programcounternext 2
  { s' with
    instruction := s'.instruction ||| v <<< 16
    programcounternext := s'.programcounternext + 2#32 }

/-- `RiscvEmulatorLoop`: one instruction; `none` where it shifts by a count that the language gives
no meaning. -/
def riscvEmulatorLoop (k : Hooks M) (s : State M) : Option (State M) :=
  let s := s.fetchLow k
  let executed :=
    if s.instruction.extractLsb' 0 2 = OPCODE16_QUADRANT_INVALID then
      some (execute k (s.fetchHigh k))
    else executeCompressed k s
  executed.map (trap k)

/-! ## Public glue -/

/-- `RiscvEmulatorSetProgramCounter`. -/
def riscvEmulatorSetProgramCounter (s : State M) (pc : Word) : State M :=
  { s with programcounter := pc, programcounternext := pc }

end Purv.Purg
