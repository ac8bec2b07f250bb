import Purv.Engine

/-!
# The transcoder (`transcode.c`)

RV32IM code is rewritten ahead of time into packed op words, with runs of instructions collapsed
into one op where no jump lands inside them.

* `Dec`, `decode` — one decoded instruction;
* `Targets`, `collectTargets` — the addresses that must keep their own op;
* `tryFusePrologue`, `tryFuseEpilogue`, `tryFuseLa`, `tryFusePair` — the fusions;
* `step` — the unit that starts at an offset, fused or not;
* `buildMap`, `emit`, `transcodeEx` — the two passes over the units.
-/

namespace Purv.Transcode

open Bits

/-! ## Leaf ops -/

@[match_pattern] def RISCV_OP_ADD : Nat := 0
@[match_pattern] def RISCV_OP_SLL : Nat := 1
@[match_pattern] def RISCV_OP_SLT : Nat := 2
@[match_pattern] def RISCV_OP_SLTU : Nat := 3
@[match_pattern] def RISCV_OP_XOR : Nat := 4
@[match_pattern] def RISCV_OP_SRL : Nat := 5
@[match_pattern] def RISCV_OP_OR : Nat := 6
@[match_pattern] def RISCV_OP_AND : Nat := 7
@[match_pattern] def RISCV_OP_SUB : Nat := 8
@[match_pattern] def RISCV_OP_SRA : Nat := 9
@[match_pattern] def RISCV_OP_ADDI : Nat := 10
@[match_pattern] def RISCV_OP_SLLI : Nat := 11
@[match_pattern] def RISCV_OP_SLTI : Nat := 12
@[match_pattern] def RISCV_OP_SLTIU : Nat := 13
@[match_pattern] def RISCV_OP_XORI : Nat := 14
@[match_pattern] def RISCV_OP_SRLI : Nat := 15
@[match_pattern] def RISCV_OP_ORI : Nat := 16
@[match_pattern] def RISCV_OP_ANDI : Nat := 17
@[match_pattern] def RISCV_OP_SRAI : Nat := 18
@[match_pattern] def RISCV_OP_MUL : Nat := 19
@[match_pattern] def RISCV_OP_MULH : Nat := 20
@[match_pattern] def RISCV_OP_MULHSU : Nat := 21
@[match_pattern] def RISCV_OP_MULHU : Nat := 22
@[match_pattern] def RISCV_OP_DIV : Nat := 23
@[match_pattern] def RISCV_OP_DIVU : Nat := 24
@[match_pattern] def RISCV_OP_REM : Nat := 25
@[match_pattern] def RISCV_OP_REMU : Nat := 26
@[match_pattern] def RISCV_OP_LB : Nat := 27
@[match_pattern] def RISCV_OP_LH : Nat := 28
@[match_pattern] def RISCV_OP_LW : Nat := 29
@[match_pattern] def RISCV_OP_LBU : Nat := 30
@[match_pattern] def RISCV_OP_LHU : Nat := 31
@[match_pattern] def RISCV_OP_SB : Nat := 32
@[match_pattern] def RISCV_OP_SH : Nat := 33
@[match_pattern] def RISCV_OP_SW : Nat := 34
@[match_pattern] def RISCV_OP_BEQ : Nat := 35
@[match_pattern] def RISCV_OP_BNE : Nat := 36
@[match_pattern] def RISCV_OP_BLT : Nat := 37
@[match_pattern] def RISCV_OP_BGE : Nat := 38
@[match_pattern] def RISCV_OP_BLTU : Nat := 39
@[match_pattern] def RISCV_OP_BGEU : Nat := 40
@[match_pattern] def RISCV_OP_JAL : Nat := 41
@[match_pattern] def RISCV_OP_JALR : Nat := 42
@[match_pattern] def RISCV_OP_LUI : Nat := 43
@[match_pattern] def RISCV_OP_AUIPC : Nat := 44
@[match_pattern] def RISCV_OP_NOP : Nat := 45
@[match_pattern] def RISCV_OP_ECALL : Nat := 46
@[match_pattern] def RISCV_OP_EBREAK : Nat := 47
@[match_pattern] def RISCV_OP_ILLEGAL : Nat := 48
@[match_pattern] def RISCV_OP_PROLOGUE : Nat := 49
@[match_pattern] def RISCV_OP_EPILOGUE : Nat := 50
@[match_pattern] def RISCV_OP_LI_LO : Nat := 51
@[match_pattern] def RISCV_OP_LI_HI : Nat := 52
@[match_pattern] def RISCV_OP_SHADD : Nat := 53
@[match_pattern] def RISCV_OP_LWX : Nat := 54
@[match_pattern] def RISCV_OP_LWLW : Nat := 55
@[match_pattern] def RISCV_OP_LW_BZ : Nat := 56
@[match_pattern] def RISCV_OP_LBU_BZ : Nat := 57
@[match_pattern] def RISCV_OP_LWSW : Nat := 58
@[match_pattern] def RISCV_OP_VCALL : Nat := 59
@[match_pattern] def RISCV_OP_MEMOP : Nat := 60

/-- `CUSTOM0`. -/
@[match_pattern] def CUSTOM0 : Nat := 0x0b

/-! ## Decode -/

/-- `load_op`. -/
def loadOp (f3 : BitVec 3) : Nat :=
  match f3.toNat with
  | 0 => RISCV_OP_LB
  | 1 => RISCV_OP_LH
  | 2 => RISCV_OP_LW
  | 4 => RISCV_OP_LBU
  | 5 => RISCV_OP_LHU
  | _ => RISCV_OP_ILLEGAL

/-- `store_op`. -/
def storeOp (f3 : BitVec 3) : Nat :=
  match f3.toNat with
  | 0 => RISCV_OP_SB
  | 1 => RISCV_OP_SH
  | 2 => RISCV_OP_SW
  | _ => RISCV_OP_ILLEGAL

/-- `branch_op`. -/
def branchOp (f3 : BitVec 3) : Nat :=
  match f3.toNat with
  | 0 => RISCV_OP_BEQ
  | 1 => RISCV_OP_BNE
  | 4 => RISCV_OP_BLT
  | 5 => RISCV_OP_BGE
  | 6 => RISCV_OP_BLTU
  | 7 => RISCV_OP_BGEU
  | _ => RISCV_OP_ILLEGAL

/-- `Dec`: a decoded instruction, or a unit fused from several. -/
structure Dec where
  op : Nat
  rd : Reg
  rs1 : Reg
  rs2 : Reg
  imm : Word
  target : Word
  width : Word
  deriving DecidableEq

/-- The word at `code[off]`. -/
def wordAt (code : Nat → Byte) (off : Word) : Word :=
  (code off.toNat).setWidth 32 ||| (code (off + 1#32).toNat).setWidth 32 <<< 8 |||
    (code (off + 2#32).toNat).setWidth 32 <<< 16 ||| (code (off + 3#32).toNat).setWidth 32 <<< 24

/-- The switch of `decode`. -/
def decodeWord (w off : Word) : Dec :=
  let f3 : BitVec 3 := w.extractLsb' 12 3
  let f7 : BitVec 7 := w.extractLsb' 25 7
  let rd : Reg := w.extractLsb' 7 5
  let rs1 : Reg := w.extractLsb' 15 5
  let d : Dec := ⟨RISCV_OP_ILLEGAL, rd, rs1, w.extractLsb' 20 5, 0#32, 0#32, 4#32⟩
  match (w.extractLsb' 0 7).toNat with
  | OPIMM =>
    if f3 = 1#3 then { d with op := RISCV_OP_SLLI, imm := bits w 20 5 }
    else if f3 = 5#3 then
      { d with op := if f7 = 0x20#7 then RISCV_OP_SRAI else RISCV_OP_SRLI, imm := bits w 20 5 }
    else { d with op := RISCV_OP_ADDI + f3.toNat, imm := w.sshiftRight 20 }
  | OP =>
    if f7 = 1#7 then { d with op := RISCV_OP_MUL + f3.toNat }
    else if f7 = 0x20#7 then { d with op := if f3 = 0#3 then RISCV_OP_SUB else RISCV_OP_SRA }
    else { d with op := RISCV_OP_ADD + f3.toNat }
  | LOAD => { d with op := loadOp f3, imm := w.sshiftRight 20 }
  | STORE => { d with op := storeOp f3, imm := storeImm w }
  | BRANCH => { d with op := branchOp f3, target := off + branchImm w }
  | JAL => { d with op := RISCV_OP_JAL, target := off + jalImm w }
  | JALR => { d with op := RISCV_OP_JALR, imm := w.sshiftRight 20 }
  | LUI => { d with op := RISCV_OP_LUI, imm := bits w 12 20 }
  | AUIPC => { d with op := RISCV_OP_AUIPC, imm := bits w 12 20 }
  | CUSTOM0 => if f7 = 0#7 then { d with op := RISCV_OP_MEMOP, imm := bits w 12 3 } else d
  | MISCMEM =>
    if rd ≠ 0#5 ∨ rs1 ≠ 0#5 ∨ (f3 ≠ 0#3 ∧ f3 ≠ 1#3) then d else { d with op := RISCV_OP_NOP }
  | SYSTEM =>
    if f3 = 0#3 ∧ rd = 0#5 ∧ rs1 = 0#5 ∧ bits w 20 12 = 0#32 then { d with op := RISCV_OP_ECALL }
    else if f3 = 0#3 ∧ rd = 0#5 ∧ rs1 = 0#5 ∧ bits w 20 12 = 1#32 then
      { d with op := RISCV_OP_EBREAK }
    else d
  | _ => d

/-- A register write to x0 becomes a `NOP`. -/
def Dec.foldZero (d : Dec) : Dec :=
  if d.rd = 0#5 ∧ (d.op ≤ RISCV_OP_REMU ∨ d.op = RISCV_OP_LUI ∨ d.op = RISCV_OP_AUIPC) then
    { d with op := RISCV_OP_NOP }
  else d

/-- `decode`. -/
def decode (code : Nat → Byte) (off : Word) : Dec := (decodeWord (wordAt code off) off).foldZero

/-- `op_words`. -/
def opWords (op : Nat) : Word :=
  if op = RISCV_OP_NOP then 0#32
  else if op = RISCV_OP_LW_BZ ∨ op = RISCV_OP_LBU_BZ then 2#32
  else 1#32

/-! ## Targets -/

/-- `Targets`: a bit for each of the first `n` 4-byte slots. -/
structure Targets where
  bits : Nat → Bool
  n : Word

/-- `targets_new`. -/
def Targets.new (len : Word) : Targets := ⟨fun _ => false, len / 4#32⟩

/-- `targets_mark`. -/
def Targets.mark (t : Targets) (addr : Word) : Targets :=
  let i := addr / 4#32
  if i < t.n then { t with bits := fun j => if j = i.toNat then true else t.bits j } else t

/-- `targets_has`. -/
def Targets.has (t : Targets) (addr : Word) : Bool :=
  let i := addr / 4#32
  decide (i < t.n) && t.bits i.toNat

/-- The loop of `collect_targets` over the code; `none` when it does not end within the fuel. -/
def collectCode (code : Nat → Byte) (len : Word) : Nat → Word → Targets → Option Targets
  | 0, _, _ => none
  | fuel + 1, off, t =>
    if off + 4#32 ≤ len then
      let d := decode code off
      let t := if d.op = RISCV_OP_JAL ∨ (RISCV_OP_BEQ ≤ d.op ∧ d.op ≤ RISCV_OP_BGEU)
        then t.mark d.target else t
      collectCode code len fuel (off + 4#32) t
    else some t

/-- Enough iterations for a loop that moves on by four bytes at a time, if it ends at all. -/
def loopFuel (len : Word) : Nat := len.toNat / 4 + 2

/-- `collect_targets`; `NULL` external targets are `[]`. -/
def collectTargets (code : Nat → Byte) (len : Word) (ext : List Word) : Option Targets :=
  (collectCode code len (loopFuel len) 0#32 (.new len)).map fun t => ext.foldl .mark t

/-! ## Frames -/

/-- `rank_of`: ra, s0, s1, s2..s11 are 0..12. -/
def rankOf (r : Reg) : Int :=
  if r = 1#5 then 0
  else if r = 8#5 then 1
  else if r = 9#5 then 2
  else if 18#5 ≤ r ∧ r ≤ 27#5 then 3 + (r - 18#5).toNat
  else -1

/-- The loop of `frame_canonical` from place `p` on, with `left` places to go. -/
def canonicalFrom (saves : List (Reg × Word)) (N : Word) : Nat → Nat → Int → Word → Option Word
  | 0, _, _, m => some m
  | left + 1, p, prev, m =>
    match saves.find? fun s => s.2 == N - 4#32 - 4#32 * BitVec.ofNat 32 p with
    | none => none
    | some (r, _) =>
      let rk := rankOf r
      if rk ≤ prev then none
      else canonicalFrom saves N left (p + 1) rk (m ||| 1#32 <<< rk.toNat)

/-- `frame_canonical`: the register mask of a canonical set of saves, given by their registers and
offsets. -/
def frameCanonical (saves : List (Reg × Word)) (N : Word) : Option Word :=
  canonicalFrom saves N saves.length 0 (-1) 0#32

/-- `frame_enc`. -/
def frameEnc (rmask N : Word) : Word := rmask <<< 13 ||| (N &&& 0x1fff#32)

/-! ## Fusions -/

/-- The loop of `try_fuse_prologue` over the saves, `left` of them at most. -/
def prologueSaves (code : Nat → Byte) (len : Word) (targets : Targets) :
    Nat → Word → List (Reg × Word)
  | 0, _ => []
  | left + 1, o =>
    if o + 4#32 ≤ len then
      if targets.has o then []
      else
        let s := decode code o
        if s.op ≠ RISCV_OP_SW ∨ s.rs1 ≠ 2#5 ∨ rankOf s.rs2 < 0 then []
        else (s.rs2, s.imm) :: prologueSaves code len targets left (o + 4#32)
    else []

/-- `try_fuse_prologue`: the unit and the bytes it covers, over what `*out` held. -/
def tryFusePrologue (code : Nat → Byte) (len off : Word) (targets : Targets) (out : Dec) :
    Option (Dec × Word) :=
  let a := decode code off
  if a.op ≠ RISCV_OP_ADDI ∨ a.rd ≠ 2#5 ∨ a.rs1 ≠ 2#5 ∨ 0 ≤ a.imm.toInt then none
  else
    let N := -a.imm
    if N = 0#32 ∨ N > 0x1fff#32 then none
    else
      let saves := prologueSaves code len targets 13 (off + 4#32)
      if saves = [] then none
      else
        match frameCanonical saves N with
        | none => none
        | some rmask =>
          some ({ out with op := RISCV_OP_PROLOGUE, imm := frameEnc rmask N },
            4#32 * (1#32 + BitVec.ofNat 32 saves.length))

/-- The loop of `try_fuse_epilogue` over the loads. -/
def epilogueLoads (code : Nat → Byte) (len off : Word) (targets : Targets) :
    Nat → Word → List (Reg × Word)
  | 0, _ => []
  | left + 1, o =>
    if o + 4#32 ≤ len then
      if o ≠ off ∧ targets.has o then []
      else
        let l := decode code o
        if l.op ≠ RISCV_OP_LW ∨ l.rs1 ≠ 2#5 ∨ rankOf l.rd < 0 then []
        else (l.rd, l.imm) :: epilogueLoads code len off targets left (o + 4#32)
    else []

/-- `try_fuse_epilogue`. -/
def tryFuseEpilogue (code : Nat → Byte) (len off : Word) (targets : Targets) (out : Dec) :
    Option (Dec × Word) :=
  let loads := epilogueLoads code len off targets 13 off
  let o := off + 4#32 * BitVec.ofNat 32 loads.length
  if loads = [] ∨ o + 8#32 > len then none
  else if targets.has o ∨ targets.has (o + 4#32) then none
  else
    let ad := decode code o
    if ad.op ≠ RISCV_OP_ADDI ∨ ad.rd ≠ 2#5 ∨ ad.rs1 ≠ 2#5 ∨ ad.imm.toInt ≤ 0 then none
    else
      let N := ad.imm
      if N > 0x1fff#32 then none
      else
        let rt := decode code (o + 4#32)
        if rt.op ≠ RISCV_OP_JALR ∨ rt.rd ≠ 0#5 ∨ rt.rs1 ≠ 1#5 ∨ rt.imm ≠ 0#32 then none
        else
          match frameCanonical loads N with
          | none => none
          | some rmask =>
            some ({ out with op := RISCV_OP_EPILOGUE, imm := frameEnc rmask N }, o + 8#32 - off)

/-- `v >= -(1 << 20) && v < (1 << 20)`. -/
def nearZero (v : Word) : Bool := decide (-(2 ^ 20) ≤ v.toInt ∧ v.toInt < 2 ^ 20)

/-- `try_fuse_la`. -/
def tryFuseLa (code : Nat → Byte) (len off : Word) (targets : Targets) (out : Dec) :
    Option (Dec × Word) :=
  if off + 8#32 > len then none
  else if targets.has (off + 4#32) then none
  else
    let a := decode code off
    if a.op ≠ RISCV_OP_AUIPC then none
    else
      let b := decode code (off + 4#32)
      if b.op ≠ RISCV_OP_ADDI ∨ b.rd ≠ a.rd ∨ b.rs1 ≠ a.rd then none
      else
        let final := off + a.imm <<< 12 + b.imm
        if final < len then none
        else if nearZero final then
          some ({ out with op := RISCV_OP_LI_LO, imm := final &&& 0x1fffff#32, rd := a.rd }, 8#32)
        else if nearZero (final - RISCV_HALF) then
          some ({ out with
            op := RISCV_OP_LI_HI, imm := (final - RISCV_HALF) &&& 0x1fffff#32, rd := a.rd }, 8#32)
        else none

/-- `slli T,X,k ; add T,B,T`. -/
def fuseShadd (a b out : Dec) : Option Dec :=
  if a.op = RISCV_OP_SLLI ∧ b.op = RISCV_OP_ADD ∧ b.rd = a.rd then
    let other := if b.rs1 = a.rd then some b.rs2 else if b.rs2 = a.rd then some b.rs1 else none
    match other with
    | none => none
    | some o =>
      if o ≠ a.rd then
        some { out with op := RISCV_OP_SHADD, rd := a.rd, rs1 := o, rs2 := a.rs1, imm := a.imm }
      else none
  else none

/-- `add T,a,b ; lw T,off(T)`. -/
def fuseLwx (a b out : Dec) : Option Dec :=
  if a.op = RISCV_OP_ADD ∧ b.op = RISCV_OP_LW ∧ a.rd ≠ 0#5 ∧ b.rd = a.rd ∧ b.rs1 = a.rd ∧
      -1024 ≤ b.imm.toInt ∧ b.imm.toInt < 1024 then
    some { out with op := RISCV_OP_LWX, rd := a.rd, rs1 := a.rs1, rs2 := a.rs2, imm := b.imm }
  else none

/-- An offset of `LWLW`. -/
def offset8 (v : Word) : Bool := decide (-128 ≤ v.toInt ∧ v.toInt < 128)

/-- `lw T,o1(a) ; lw T,o2(T)`. -/
def fuseLwlw (a b out : Dec) : Option Dec :=
  if b.op = RISCV_OP_LW ∧ b.rd = a.rd ∧ b.rs1 = a.rd ∧ offset8 a.imm ∧ offset8 b.imm then
    some { out with
      op := RISCV_OP_LWLW, rd := a.rd, rs1 := a.rs1,
      imm := (a.imm &&& 0xff#32) <<< 8 ||| (b.imm &&& 0xff#32) }
  else none

/-- `lw T,o1(a) ; sw T,o2(b)`. -/
def fuseLwsw (a b out : Dec) : Option Dec :=
  if b.op = RISCV_OP_SW ∧ b.rs2 = a.rd ∧ a.imm < 128#32 ∧ a.imm &&& 3#32 = 0#32 ∧
      b.imm < 256#32 ∧ b.imm &&& 3#32 = 0#32 then
    some { out with
      op := RISCV_OP_LWSW, rd := a.rd, rs1 := a.rs1, rs2 := b.rs1,
      imm := (a.imm >>> 2) <<< 6 ||| b.imm >>> 2 }
  else none

/-- `lw/lbu T,off(a) ; beq/bne T,x0,target`; the condition bit rides in `rs2`. -/
def fuseBz (a b out : Dec) : Option Dec :=
  if (a.op = RISCV_OP_LW ∨ a.op = RISCV_OP_LBU) ∧ a.rd ≠ 0#5 ∧
      (b.op = RISCV_OP_BEQ ∨ b.op = RISCV_OP_BNE) ∧
      ((b.rs1 = a.rd ∧ b.rs2 = 0#5) ∨ (b.rs2 = a.rd ∧ b.rs1 = 0#5)) then
    some { out with
      op := if a.op = RISCV_OP_LW then RISCV_OP_LW_BZ else RISCV_OP_LBU_BZ,
      rd := a.rd, rs1 := a.rs1, imm := a.imm, target := b.target,
      rs2 := if b.op = RISCV_OP_BEQ then 1#5 else 0#5 }
  else none

/-- The `jalr ra,0(T)` that makes an `LWLW` a vtable call. -/
def isVcall (code : Nat → Byte) (len off : Word) (targets : Targets) (a : Dec) : Bool :=
  decide (off + 12#32 ≤ len) && !targets.has (off + 8#32) &&
    let c := decode code (off + 8#32)
    decide (c.op = RISCV_OP_JALR ∧ c.rd = 1#5 ∧ c.rs1 = a.rd ∧ c.imm = 0#32)

/-- `try_fuse_pair`. -/
def tryFusePair (code : Nat → Byte) (len off : Word) (targets : Targets) (out : Dec) :
    Option (Dec × Word) :=
  if off + 8#32 > len then none
  else if targets.has (off + 4#32) then none
  else
    let a := decode code off
    let b := decode code (off + 4#32)
    match fuseShadd a b out with
    | some d => some (d, 8#32)
    | none =>
    match fuseLwx a b out with
    | some d => some (d, 8#32)
    | none =>
    match if a.op = RISCV_OP_LW ∧ a.rd ≠ 0#5 then fuseLwlw a b out else none with
    | some d =>
      if isVcall code len off targets a then some ({ d with op := RISCV_OP_VCALL }, 12#32)
      else some (d, 8#32)
    | none =>
    match if a.op = RISCV_OP_LW ∧ a.rd ≠ 0#5 then fuseLwsw a b out else none with
    | some d => some (d, 8#32)
    | none =>
    match fuseBz a b out with
    | some d => some (d, 8#32)
    | none => none

/-- A lone `auipc` of a data address becomes a load immediate. -/
def foldAuipc (off : Word) (d : Dec) : Dec :=
  if d.op = RISCV_OP_AUIPC then
    let val := off + d.imm <<< 12
    if val.toInt ≤ -2049 ∧ -(2 ^ 20) ≤ val.toInt then
      { d with op := RISCV_OP_LI_LO, imm := val &&& 0x1fffff#32 }
    else if nearZero (val - RISCV_HALF) then
      { d with op := RISCV_OP_LI_HI, imm := (val - RISCV_HALF) &&& 0x1fffff#32 }
    else d
  else d

/-- `step`: the unit at `off` and the bytes it covers. -/
def step (code : Nat → Byte) (len off : Word) (targets : Targets) (d : Dec) : Dec × Word :=
  match tryFusePrologue code len off targets d with
  | some u => u
  | none =>
  match tryFuseEpilogue code len off targets d with
  | some u => u
  | none =>
  match tryFuseLa code len off targets d with
  | some u => u
  | none =>
  match tryFusePair code len off targets d with
  | some u => u
  | none => (foldAuipc off (decode code off), (decode code off).width)

/-! ## Layout -/

/-- `TC_SENTINEL`. -/
def TC_SENTINEL : Word := 0xffffffff#32

/-- `target_word`. -/
def targetWord (map : Nat → Word) (len target at_ : Word) : Word :=
  if target ≥ len then at_
  else
    let tw := map (target >>> 1).toNat
    if tw = TC_SENTINEL then at_ else tw

/-- `(uint32_t)op << 26`. -/
def opField (op : Nat) : Word := BitVec.ofNat 32 op <<< 26

/-- A register in the slot at bit `lo`. -/
def regField (r : Reg) (lo : Nat) : Word := r.setWidth 32 <<< lo

/-- `emit` at op-word offset `at_`: the words written. -/
def emit (at_ : Word) (d : Dec) (map : Nat → Word) (len : Word) : List Word :=
  let op := d.op
  let w0 := opField op
  let delta4 := (targetWord map len d.target at_ - at_) * 4#32
  if op ≤ RISCV_OP_SRA ∨ (RISCV_OP_MUL ≤ op ∧ op ≤ RISCV_OP_REMU) then
    [w0 ||| regField d.rd 21 ||| regField d.rs1 16 ||| regField d.rs2 11]
  else if RISCV_OP_ADDI ≤ op ∧ op ≤ RISCV_OP_SRAI then
    [w0 ||| regField d.rd 21 ||| regField d.rs1 16 ||| (d.imm &&& 0xffff#32)]
  else if RISCV_OP_LB ≤ op ∧ op ≤ RISCV_OP_LHU then
    [w0 ||| regField d.rd 21 ||| regField d.rs1 16 ||| (d.imm &&& 0xffff#32)]
  else if RISCV_OP_SB ≤ op ∧ op ≤ RISCV_OP_SW then
    [w0 ||| regField d.rs2 21 ||| regField d.rs1 16 ||| (d.imm &&& 0xffff#32)]
  else if op = RISCV_OP_PROLOGUE ∨ op = RISCV_OP_EPILOGUE then [w0 ||| (d.imm &&& 0x3ffffff#32)]
  else if op = RISCV_OP_LI_LO ∨ op = RISCV_OP_LI_HI then
    [w0 ||| regField d.rd 21 ||| (d.imm &&& 0x1fffff#32)]
  else if op = RISCV_OP_SHADD then
    [w0 ||| regField d.rd 21 ||| regField d.rs1 16 ||| regField d.rs2 11 ||| (d.imm &&& 31#32) <<< 6]
  else if op = RISCV_OP_LWX then
    [w0 ||| regField d.rd 21 ||| regField d.rs1 16 ||| regField d.rs2 11 ||| (d.imm &&& 0x7ff#32)]
  else if op = RISCV_OP_LWSW then
    [w0 ||| regField d.rd 21 ||| regField d.rs1 16 ||| regField d.rs2 11 ||| (d.imm &&& 0x7ff#32)]
  else if op = RISCV_OP_MEMOP then
    [w0 ||| regField d.rd 21 ||| regField d.rs1 16 ||| regField d.rs2 11 ||| (d.imm &&& 7#32)]
  else if op = RISCV_OP_LWLW ∨ op = RISCV_OP_VCALL then
    [w0 ||| regField d.rd 21 ||| regField d.rs1 16 ||| (d.imm &&& 0xffff#32)]
  else if op = RISCV_OP_LW_BZ ∨ op = RISCV_OP_LBU_BZ then
    [w0 ||| regField d.rd 21 ||| regField d.rs1 16 ||| (d.imm &&& 0xffff#32),
      delta4 ||| (d.rs2.setWidth 32 &&& 1#32)]
  else if RISCV_OP_BEQ ≤ op ∧ op ≤ RISCV_OP_BGEU then
    [w0 ||| regField d.rs1 21 ||| regField d.rs2 16 ||| (delta4 &&& 0xffff#32)]
  else if op = RISCV_OP_JAL then [w0 ||| regField d.rd 21 ||| (delta4 &&& 0x1fffff#32)]
  else if op = RISCV_OP_JALR then
    [w0 ||| regField d.rd 21 ||| regField d.rs1 16 ||| (d.imm &&& 0xffff#32)]
  else if op = RISCV_OP_LUI ∨ op = RISCV_OP_AUIPC then
    [w0 ||| regField d.rd 21 ||| (d.imm &&& 0xfffff#32)]
  else if op = RISCV_OP_NOP then []
  else [w0]

/-- The width that the low two bits at `off` announce, if it fits. -/
def unitAt (code : Nat → Byte) (len off : Word) : Bool :=
  decide (off + 2#32 ≤ len) &&
    decide (off + (if (fetchHalf code off).extractLsb' 0 2 = 3#2 then 4#32 else 2#32) ≤ len)

/-- The loop of `build_map`: the map and the op count; `d` is what the last `step` left. -/
def buildMapFrom (code : Nat → Byte) (len : Word) (targets : Targets) :
    Nat → Word → Dec → (Nat → Word) → Word → Option ((Nat → Word) × Word)
  | 0, _, _, _, _ => none
  | fuel + 1, off, d, map, at_ =>
    if unitAt code len off then
      let (d, wd) := step code len off targets d
      buildMapFrom code len targets fuel (off + wd) d
        (fun j => if j = (off >>> 1).toNat then at_ else map j) (at_ + opWords d.op)
    else some (map, at_)

/-- What the stack held for the uninitialised `Dec`. -/
def Dec.zero : Dec := ⟨0, 0#5, 0#5, 0#5, 0#32, 0#32, 0#32⟩

/-- `build_map`. -/
def buildMap (code : Nat → Byte) (len : Word) (targets : Targets) :
    Option ((Nat → Word) × Word) :=
  buildMapFrom code len targets (loopFuel len) 0#32 .zero (fun _ => TC_SENTINEL) 0#32

/-- The emit loop of `transcode_ex`: the words from op-word offset `at_` on. -/
def emitFrom (code : Nat → Byte) (len : Word) (targets : Targets) (map : Nat → Word) :
    Nat → Word → Dec → Word → Option (List Word)
  | 0, _, _, _ => none
  | fuel + 1, off, d, at_ =>
    if unitAt code len off then
      let (d, wd) := step code len off targets d
      let ws := emit at_ d map len
      (emitFrom code len targets map fuel (off + wd) d (at_ + BitVec.ofNat 32 ws.length)).map
        fun rest => ws ++ rest
    else some []

/-- `transcode_map_ex`: the map and the op count; `none` when it does not return. -/
def transcodeMapEx (code : Nat → Byte) (len : Word) (ext : List Word) :
    Option ((Nat → Word) × Word) :=
  match collectTargets code len ext with
  | none => none
  | some targets => buildMap code len targets

/-- `Transcoded`. -/
structure Transcoded where
  ops : List Word
  n_ops : Word
  code_len : Word

/-- `transcode_ex`; `none` when it does not return. -/
def transcodeEx (code : Nat → Byte) (len : Word) (ext : List Word) : Option Transcoded :=
  match collectTargets code len ext with
  | none => none
  | some targets =>
    match buildMap code len targets with
    | none => none
    | some (map, n_ops) =>
      (emitFrom code len targets map (loopFuel len) 0#32 .zero 0#32).map fun ops =>
        ⟨ops, n_ops, n_ops * 4#32⟩

end Purv.Transcode
