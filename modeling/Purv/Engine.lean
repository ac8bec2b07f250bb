import Purv.State

/-!
# The interpreter (`purv.c`)

`RiscvEmulatorLoop` decodes each instruction, 32-bit or compressed, into a few locals and then
jumps to a shared action body.

* `Action` — the label jumped to, with the locals its body reads;
* `decode32`, `decode16` — the two decode switches;
* `execute` — the action bodies, ending in `Next`: fall to `done`, leave the window with a new
  pc, or go to `out`;
* `window`, `loopFrom`, `riscvEmulatorLoop` — the inner loop over a window of instructions that
  need no bounds check, and the outer loop that sizes the window.
-/

namespace Purv

open Bits

variable {H : Type}

/-! ## Base opcodes (`instruction[6:0]`) -/

@[match_pattern] def LOAD : Nat := 0x03
@[match_pattern] def MISCMEM : Nat := 0x0f
@[match_pattern] def OPIMM : Nat := 0x13
@[match_pattern] def AUIPC : Nat := 0x17
@[match_pattern] def STORE : Nat := 0x23
@[match_pattern] def OP : Nat := 0x33
@[match_pattern] def LUI : Nat := 0x37
@[match_pattern] def BRANCH : Nat := 0x63
@[match_pattern] def JALR : Nat := 0x67
@[match_pattern] def JAL : Nat := 0x6f
@[match_pattern] def SYSTEM : Nat := 0x73

/-! ## Decode -/

/-- A `goto` to an action body, with the locals the body reads. -/
inductive Action where
  | alu (rd : Reg) (a b : Word) (f3 : BitVec 3) (f7 : BitVec 7)
  | mul (rd : Reg) (a b : Word) (f3 : BitVec 3)
  | load (rd : Reg) (a imm : Word) (f3 : BitVec 3)
  | store (a b imm : Word) (f3 : BitVec 3)
  | branch (a b imm : Word) (f3 : BitVec 3)
  | jal (rd : Reg) (imm : Word)
  | jalr (rd : Reg) (a imm : Word)
  | lui (rd : Reg) (imm : Word)
  | auipc (rd : Reg) (imm : Word)
  | system (rd rs1 : Reg) (f3 : BitVec 3) (imm : Word)
  | ebreak
  | illegal
  | done

/-- The S-immediate. -/
def storeImm (w : Word) : Word := w.sshiftRight 25 <<< 5 ||| bits w 7 5

/-- The B-immediate. -/
def branchImm (w : Word) : Word :=
  sext (bits w 31 1 <<< 12 ||| bits w 7 1 <<< 11 ||| bits w 25 6 <<< 5 ||| bits w 8 4 <<< 1) 13

/-- The J-immediate. -/
def jalImm (w : Word) : Word :=
  sext (bits w 31 1 <<< 20 ||| bits w 12 8 <<< 12 ||| bits w 20 1 <<< 11 ||| bits w 21 10 <<< 1) 21

/-- The 32-bit decode arms. -/
def decode32 (x : Reg → Word) (w : Word) : Action :=
  let rd : Reg := w.extractLsb' 7 5
  let rs1 : Reg := w.extractLsb' 15 5
  let rs2 : Reg := w.extractLsb' 20 5
  let f3 : BitVec 3 := w.extractLsb' 12 3
  let f7 : BitVec 7 := w.extractLsb' 25 7
  match (w.extractLsb' 0 7).toNat with
  | OPIMM =>
    if f3 = 1#3 ∨ f3 = 5#3 then .alu rd (x rs1) (bits w 20 5) f3 f7
    else .alu rd (x rs1) (w.sshiftRight 20) f3 0#7
  | OP => if f7 = 1#7 then .mul rd (x rs1) (x rs2) f3 else .alu rd (x rs1) (x rs2) f3 f7
  | LOAD => .load rd (x rs1) (w.sshiftRight 20) f3
  | STORE => .store (x rs1) (x rs2) (storeImm w) f3
  | BRANCH => .branch (x rs1) (x rs2) (branchImm w) f3
  | JAL => .jal rd (jalImm w)
  | JALR => .jalr rd (x rs1) (w.sshiftRight 20)
  | LUI => .lui rd (w &&& 0xfffff000#32)
  | AUIPC => .auipc rd (w &&& 0xfffff000#32)
  | MISCMEM => if rd ≠ 0#5 ∨ rs1 ≠ 0#5 ∨ (f3 ≠ 0#3 ∧ f3 ≠ 1#3) then .illegal else .done
  | SYSTEM => .system rd rs1 f3 (bits w 20 12)
  | _ => .illegal

/-- A 3-bit register field names `x8..x15`. -/
def primeReg (c : Half) (lo : Nat) : Reg := (c.extractLsb' lo 3).setWidth 5 + 8#5

/-- `C.ADDI4SPN`. -/
def addi4spnImm (c : Half) : Word :=
  bits c 11 2 <<< 4 ||| bits c 7 4 <<< 6 ||| bits c 6 1 <<< 2 ||| bits c 5 1 <<< 3

/-- `C.LW`, `C.SW`. -/
def clwImm (c : Half) : Word := bits c 10 3 <<< 3 ||| bits c 6 1 <<< 2 ||| bits c 5 1 <<< 6

/-- The 6-bit immediate of the CI format, unsigned. -/
def shamt (c : Half) : Word := bits c 2 5 ||| bits c 12 1 <<< 5

/-- `C.J`, `C.JAL`. -/
def cjImm (c : Half) : Word :=
  sext (bits c 12 1 <<< 11 ||| bits c 11 1 <<< 4 ||| bits c 9 2 <<< 8 ||| bits c 8 1 <<< 10 |||
    bits c 7 1 <<< 6 ||| bits c 6 1 <<< 7 ||| bits c 3 3 <<< 1 ||| bits c 2 1 <<< 5) 12

/-- `C.ADDI16SP`. -/
def addi16spImm (c : Half) : Word :=
  sext (bits c 6 1 <<< 4 ||| bits c 2 1 <<< 5 ||| bits c 5 1 <<< 6 ||| bits c 3 2 <<< 7 |||
    bits c 12 1 <<< 9) 10

/-- `C.LUI`. -/
def cluiImm (c : Half) : Word := sext (bits c 2 5 <<< 12 ||| bits c 12 1 <<< 17) 18

/-- `C.BEQZ`, `C.BNEZ`. -/
def cbImm (c : Half) : Word :=
  sext (bits c 12 1 <<< 8 ||| bits c 10 2 <<< 3 ||| bits c 5 2 <<< 6 ||| bits c 3 2 <<< 1 |||
    bits c 2 1 <<< 5) 9

/-- `C.LWSP`. -/
def clwspImm (c : Half) : Word := bits c 4 3 <<< 2 ||| bits c 2 2 <<< 6 ||| bits c 12 1 <<< 5

/-- `C.SWSP`. -/
def cswspImm (c : Half) : Word := bits c 9 4 <<< 2 ||| bits c 7 2 <<< 6

/-- `case 4 << 2 | 1`: C.MISC-ALU. -/
def decodeMiscAlu (x : Reg → Word) (c : Half) : Action :=
  let rd := primeReg c 7
  let a := x rd
  match (c.extractLsb' 10 2).toNat with
  | 0 => .alu rd a (shamt c) 5#3 0#7
  | 1 => .alu rd a (shamt c) 5#3 0x20#7
  | 2 => .alu rd a (sext (shamt c) 6) 7#3 0#7
  | _ =>
    if c.extractLsb' 12 1 = 1#1 then .illegal
    else
      let b := x (primeReg c 2)
      match (c.extractLsb' 5 2).toNat with
      | 0 => .alu rd a b 0#3 0x20#7
      | 1 => .alu rd a b 4#3 0#7
      | 2 => .alu rd a b 6#3 0#7
      | _ => .alu rd a b 7#3 0#7

/-- `case 4 << 2 | 2`: C.JR, C.MV, C.EBREAK, C.JALR, C.ADD. -/
def decodeJrMvAdd (x : Reg → Word) (c : Half) : Action :=
  let rd : Reg := c.extractLsb' 7 5
  let rs2 : Reg := c.extractLsb' 2 5
  if c.extractLsb' 12 1 = 0#1 then
    if rs2 = 0#5 then .jalr 0#5 (x rd) 0#32 else .alu rd 0#32 (x rs2) 0#3 0#7
  else if rd = 0#5 ∧ rs2 = 0#5 then .ebreak
  else if rs2 = 0#5 then .jalr 1#5 (x rd) 0#32
  else .alu rd (x rd) (x rs2) 0#3 0#7

/-- The compressed decode arms; the selector is `funct3 << 2 | op`. -/
def decode16 (x : Reg → Word) (c : Half) : Action :=
  let rd : Reg := c.extractLsb' 7 5
  let rdp := primeReg c 2
  let rsp := primeReg c 7
  match (c.extractLsb' 13 3).toNat * 4 + (c.extractLsb' 0 2).toNat with
  | 0 =>
    if addi4spnImm c = 0#32 then .illegal else .alu rdp (x 2#5) (addi4spnImm c) 0#3 0#7
  | 8 => .load rdp (x rsp) (clwImm c) 2#3
  | 24 => .store (x rsp) (x rdp) (clwImm c) 2#3
  | 1 => .alu rd (x rd) (sext (shamt c) 6) 0#3 0#7
  | 5 => .jal 1#5 (cjImm c)
  | 21 => .jal 0#5 (cjImm c)
  | 9 => .alu rd 0#32 (sext (shamt c) 6) 0#3 0#7
  | 13 =>
    if rd = 2#5 then
      if addi16spImm c = 0#32 then .illegal else .alu rd (x 2#5) (addi16spImm c) 0#3 0#7
    else if cluiImm c = 0#32 then .illegal else .lui rd (cluiImm c)
  | 17 => decodeMiscAlu x c
  | 25 => .branch (x rsp) 0#32 (cbImm c) 0#3
  | 29 => .branch (x rsp) 0#32 (cbImm c) 1#3
  | 2 => .alu rd (x rd) (shamt c) 1#3 0#7
  | 10 => .load rd (x 2#5) (clwspImm c) 2#3
  | 18 => decodeJrMvAdd x c
  | 26 => .store (x 2#5) (x (c.extractLsb' 2 5)) (cswspImm c) 2#3
  | _ => .illegal

/-! ## The action bodies -/

/-- `alu`. -/
def alu (a b : Word) (f3 : BitVec 3) (f7 : BitVec 7) : Word :=
  match f3.toNat with
  | 0 => if f7 = 0x20#7 then a - b else a + b
  | 1 => a <<< (b &&& 31#32)
  | 2 => if a.slt b then 1#32 else 0#32
  | 3 => if a.ult b then 1#32 else 0#32
  | 4 => a ^^^ b
  | 5 => if f7 = 0x20#7 then a.sshiftRight (b &&& 31#32).toNat else a >>> (b &&& 31#32)
  | 6 => a ||| b
  | _ => a &&& b

/-- `mul`: RV32M. -/
def mul (a b : Word) (f3 : BitVec 3) : Word :=
  match f3.toNat with
  | 0 => a * b
  | 1 => ((a.signExtend 64 * b.signExtend 64) >>> 32).setWidth 32
  | 2 => ((a.signExtend 64 * b.setWidth 64) >>> 32).setWidth 32
  | 3 => ((a.setWidth 64 * b.setWidth 64) >>> 32).setWidth 32
  | 4 =>
    if b = 0#32 then 0xffffffff#32
    else if a = 0x80000000#32 ∧ b = 0xffffffff#32 then a
    else a.sdiv b
  | 5 => if b = 0#32 then 0xffffffff#32 else a / b
  | 6 =>
    if b = 0#32 then a
    else if a = 0x80000000#32 ∧ b = 0xffffffff#32 then 0#32
    else a.srem b
  | _ => if b = 0#32 then a else a % b

/-- `load`, by width and sign, from the translated pointer. -/
def loadValue (s : State H) (p : Ptr) (f3 : BitVec 3) : Word :=
  match f3.toNat with
  | 0 => (s.byte p 0).signExtend 32
  | 1 => ((s.byte p 0).setWidth 16 ||| (s.byte p 1).setWidth 16 <<< 8).signExtend 32
  | 2 =>
    (s.byte p 0).setWidth 32 ||| (s.byte p 1).setWidth 32 <<< 8 |||
      (s.byte p 2).setWidth 32 <<< 16 ||| (s.byte p 3).setWidth 32 <<< 24
  | 4 => (s.byte p 0).setWidth 32
  | _ => (s.byte p 0).setWidth 32 ||| (s.byte p 1).setWidth 32 <<< 8

/-- The low bytes of what the callback answered to a narrow load. -/
def narrow (v n : Word) (f3 : BitVec 3) : Word :=
  if f3 &&& 4#3 ≠ 0#3 then
    if n = 4#32 then v else v &&& ((1#32 <<< (8#32 * n)) - 1#32)
  else sext v (8 * n.toNat)

/-- `load` past its check of `f3`. -/
def execLoad (h : Hooks H) (r : Run H) (rd : Reg) (addr : Word) (f3 : BitVec 3) : Run H :=
  let n : Word := 1#32 <<< (f3.toNat % 4)
  if rd = 0#5 then r else
  match memXlate r.s addr n false with
  | some p => r.wr rd (loadValue r.s p f3)
  | none =>
    let (r, v) := r.callback h .load addr 0#32
    r.wr rd (narrow v n f3)

/-- `store`, by width, through the translated pointer. -/
def storeValue (s : State H) (p : Ptr) (b : Word) (f3 : BitVec 3) : State H :=
  match f3.toNat with
  | 0 => s.setByte p 0 (b.extractLsb' 0 8)
  | 1 => (s.setByte p 0 (b.extractLsb' 0 8)).setByte p 1 (b.extractLsb' 8 8)
  | _ =>
    (((s.setByte p 0 (b.extractLsb' 0 8)).setByte p 1 (b.extractLsb' 8 8)).setByte p 2
      (b.extractLsb' 16 8)).setByte p 3 (b.extractLsb' 24 8)

/-- `store` past its check of `f3`. -/
def execStore (h : Hooks H) (r : Run H) (addr b : Word) (f3 : BitVec 3) : Run H :=
  match memXlate r.s addr (1#32 <<< f3.toNat) true with
  | some p => { r with s := storeValue r.s p b f3 }
  | none => (r.callback h .store addr b).1

/-- `branch`: whether it is taken; `none` for an undefined condition. -/
def branchTaken (a b : Word) (f3 : BitVec 3) : Option Bool :=
  match f3.toNat with
  | 0 => some (a == b)
  | 1 => some (a != b)
  | 4 => some (a.slt b)
  | 5 => some (!a.slt b)
  | 6 => some (a.ult b)
  | 7 => some (!a.ult b)
  | _ => none

/-- Where an action body ends. -/
inductive Next where
  | done
  | jump (pc : Word)
  | out

/-- `s->pc = pc; s->inst = inst;` then the handler: `goto out` if it stops, else `done`. -/
def Run.raise (h : Hooks H) (r : Run H) (pc inst : Word) (t : Trap) : Run H × Next :=
  let (r, stop) := (r.fault pc inst).trap h t
  (r, if stop then .out else .done)

/-- The action bodies. -/
def execute (h : Hooks H) (r : Run H) (pc width inst : Word) : Action → Run H × Next
  | .alu rd a b f3 f7 => (r.wr rd (alu a b f3 f7), .done)
  | .mul rd a b f3 => (r.wr rd (mul a b f3), .done)
  | .load rd a imm f3 =>
    if f3 = 3#3 ∨ f3 > 5#3 then r.raise h pc inst .illegal
    else (execLoad h r rd (a + imm) f3, .done)
  | .store a b imm f3 =>
    if f3 > 2#3 then r.raise h pc inst .illegal
    else (execStore h r (a + imm) b f3, .done)
  | .branch a b imm f3 =>
    match branchTaken a b f3 with
    | none => r.raise h pc inst .illegal
    | some true => (r, .jump (pc + imm))
    | some false => (r, .done)
  | .jal rd imm => (r.wr rd (pc + width), .jump (pc + imm))
  | .jalr rd a imm => (r.wr rd (pc + width), .jump ((a + imm) &&& ~~~1#32))
  | .lui rd imm => (r.wr rd imm, .done)
  | .auipc rd imm => (r.wr rd (pc + imm), .done)
  | .system rd rs1 f3 imm =>
    if f3 = 0#3 ∧ rd = 0#5 ∧ rs1 = 0#5 ∧ imm = 0#32 then r.raise h pc inst .ecall
    else if f3 = 0#3 ∧ rd = 0#5 ∧ rs1 = 0#5 ∧ imm = 1#32 then r.raise h pc inst .ebreak
    else r.raise h pc inst .illegal
  | .ebreak => r.raise h pc inst .ebreak
  | .illegal => r.raise h pc inst .illegal
  | .done => (r, .done)

/-! ## Fetch -/

/-- A fetched instruction, as its low two bits size it. -/
inductive Insn where
  | half (c : Half)
  | word (w : Word)
  deriving DecidableEq

/-- `code[off] | code[off + 1] << 8`. -/
def fetchHalf (code : Nat → Byte) (off : Word) : Half :=
  (code off.toNat).setWidth 16 ||| (code (off + 1#32).toNat).setWidth 16 <<< 8

/-- The instruction at `code[off]`. -/
def fetch (code : Nat → Byte) (off : Word) : Insn :=
  let lo := fetchHalf code off
  if lo.extractLsb' 0 2 = 3#2 then
    .word (lo.setWidth 32 ||| (fetchHalf code (off + 2#32)).setWidth 32 <<< 16)
  else .half lo

/-- `width`. -/
def Insn.width : Insn → Word
  | .half _ => 2#32
  | .word _ => 4#32

/-- `inst`. -/
def Insn.inst : Insn → Word
  | .half c => c.setWidth 32
  | .word w => w

def Insn.decode (x : Reg → Word) : Insn → Action
  | .half c => decode16 x c
  | .word w => decode32 x w

/-- The body of the inner loop once the instruction is fetched. -/
def oneInsn (h : Hooks H) (r : Run H) (pc : Word) (i : Insn) : Run H × Next :=
  execute h r pc i.width i.inst (i.decode r.s.x)

/-! ## The loop -/

/-- Why the loop returned: `k == max`, nothing fetchable at the pc, or a handler.  `running` is no
return: the rounds that the model was given were too few. -/
inductive Stop where
  | budget
  | fetch
  | trap
  | running
  deriving DecidableEq, Repr

/-- What `RiscvEmulatorLoop` leaves behind; `k` is its return value. -/
structure Result (H : Type) where
  r : Run H
  k : Nat
  stop : Stop

/-- The inner loop over `safe` instructions: the run, pc and count it leaves with, and whether
it left by `goto out`. -/
def window (h : Hooks H) (code : Buf) (max : Nat) : Nat → Run H → Word → Nat →
    Run H × Word × Nat × Bool
  | 0, r, pc, k => (r, pc, k, false)
  | safe + 1, r, pc, k =>
    if k < max then
      let i := fetch (r.s.mem code) pc
      match oneInsn h r pc i with
      | (r, .done) => window h code max safe r (pc + i.width) (k + 1)
      | (r, .jump t) => (r, t, k + 1, false)
      | (r, .out) => (r, pc, k + 1, true)
    else (r, pc, k, false)

/-- How many instructions can be fetched from `pc` with no check; `none` ends the batch. -/
def safeCount (code : Nat → Byte) (null : Bool) (code_len pc : Word) : Option Nat :=
  if null ∨ code_len ≤ pc ∨ code_len - pc < 2#32 then none
  else if code_len - pc < 4#32 then
    if (fetchHalf code pc).extractLsb' 0 2 = 3#2 then none else some 1
  else some ((code_len - pc) / 4#32).toNat

/-- The outer loop.  Each round executes at least one instruction, so `max` rounds are enough
(`loopFrom_eq`). -/
def loopFrom (h : Hooks H) (code : Buf) (code_len : Word) (max : Nat) : Nat → Run H → Word →
    Nat → Result H
  | 0, r, pc, k => ⟨r.setPc pc, k, .budget⟩
  | rounds + 1, r, pc, k =>
    if k < max then
      match safeCount (r.s.mem code) (code == 0) code_len pc with
      | none => ⟨r.setPc pc, k, .fetch⟩
      | some safe =>
        match window h code max safe r pc k with
        | (r, pc, k, true) => ⟨r.setPc pc, k, .trap⟩
        | (r, pc, k, false) => loopFrom h code code_len max rounds r pc k
    else ⟨r.setPc pc, k, .budget⟩

/-- `RiscvEmulatorLoop` of `purv.c`. -/
def riscvEmulatorLoop (h : Hooks H) (r : Run H) (max : Nat) : Result H :=
  loopFrom h r.s.readonly.ptr r.s.readonly.len max max r r.s.pc 0

end Purv
