import Purv.Transcode

/-!
# The evaluator of transcoded programs (`purva.c`, `purvmemop.h`)

`RiscvEmulatorLoop` threads over an array of packed op words; the cursor is the pc.

* `TC_A` .. `TC_W2` — the fields of an op word;
* `memR`, `memW`, `ldLe`, `stLe` — the two regions;
* `prologue`, `epilogue`, `purvMemop` — the ops that touch runs of memory;
* `dispatch` — one op: the run after it, its fuel, and where the cursor goes;
* `loopFrom`, `riscvEmulatorLoop` — the threaded loop and its budget checks.
-/

namespace Purv.Purva

open Bits Transcode

variable {H : Type}

/-! ## Op words -/

/-- `TC_OP`. -/
def TC_OP (w : Word) : Nat := (w >>> 26).toNat

/-- `TC_A`: rd, or rs1 of a branch, or rs2 of a store. -/
def TC_A (w : Word) : Reg := w.extractLsb' 21 5

/-- `TC_B`: rs1, or rs2 of a branch. -/
def TC_B (w : Word) : Reg := w.extractLsb' 16 5

/-- `TC_C`: rs2. -/
def TC_C (w : Word) : Reg := w.extractLsb' 11 5

/-- `TC_IMM`. -/
def TC_IMM (w : Word) : Word := (w.setWidth 16).signExtend 32

/-- `TC_JOFF`. -/
def TC_JOFF (w : Word) : Word := ((w &&& 0x1fffff#32) <<< 11).sshiftRight 11

/-- `TC_UIMM`. -/
def TC_UIMM (w : Word) : Word := w &&& 0xfffff#32

/-- `TC_SH`. -/
def TC_SH (w : Word) : Word := (w >>> 6) &&& 31#32

/-- `TC_OFF11`. -/
def TC_OFF11 (w : Word) : Word := (w <<< 21).sshiftRight 21

/-- `TC_O1`. -/
def TC_O1 (w : Word) : Word := ((w >>> 8).setWidth 8).signExtend 32

/-- `TC_O2`. -/
def TC_O2 (w : Word) : Word := (w.setWidth 8).signExtend 32

/-- `TC_W1`. -/
def TC_W1 (w : Word) : Word := ((w >>> 6) &&& 31#32) <<< 2

/-- `TC_W2`. -/
def TC_W2 (w : Word) : Word := (w &&& 63#32) <<< 2

/-! ## Memory -/

/-- `ld_le`. -/
def ldLe (s : State H) (q : Ptr) (n : Nat) : Word :=
  let v : Word := (s.byte q 0).setWidth 32
  let v := if n > 1 then v ||| (s.byte q 1).setWidth 32 <<< 8 else v
  if n > 2 then v ||| ((s.byte q 2).setWidth 32 <<< 16 ||| (s.byte q 3).setWidth 32 <<< 24) else v

/-- `st_le`. -/
def stLe (s : State H) (q : Ptr) (n : Nat) (v : Word) : State H :=
  let s := s.setByte q 0 (v.extractLsb' 0 8)
  let s := if n > 1 then s.setByte q 1 (v.extractLsb' 8 8) else s
  if n > 2 then (s.setByte q 2 (v.extractLsb' 16 8)).setByte q 3 (v.extractLsb' 24 8) else s

/-- `mem_w`. -/
def memW (s : State H) (a n : Word) : Option Ptr :=
  (s.writable.hit a n).map fun rel => (s.writable.ptr, rel)

/-- `mem_r`. -/
def memR (s : State H) (a n : Word) : Option Ptr :=
  match memW s a n with
  | some q => some q
  | none => (s.readonly.hit a n).map fun rel => (s.readonly.ptr, rel)

/-- The value at `a`: `n` bytes of a region, or what the callback answers. -/
def load (h : Hooks H) (r : Run H) (a : Word) (n : Nat) : Run H × Word :=
  match memR r.s a (BitVec.ofNat 32 n) with
  | some q => (r, ldLe r.s q n)
  | none => r.callback h .load a 0#32

/-- `n` bytes of `v` to `a`: into the writable region, or to the callback. -/
def store (h : Hooks H) (r : Run H) (a v : Word) (n : Nat) : Run H :=
  match memW r.s a (BitVec.ofNat 32 n) with
  | some q => { r with s := stLe r.s q n v }
  | none => (r.callback h .store a v).1

/-- `s->x[i] = v`, with no guard. -/
def put (r : Run H) (i : Reg) (v : Word) : Run H := { r with s := r.s.setX i v }

/-- `(uint32_t)(int32_t)(T)v`: the C types that `LOAD` is used at. -/
inductive CType where
  | int8_t
  | int16_t
  | int32_t
  | uint8_t
  | uint16_t
  deriving DecidableEq

/-- `sizeof(T)`. -/
def CType.size : CType → Nat
  | .int8_t | .uint8_t => 1
  | .int16_t | .uint16_t => 2
  | .int32_t => 4

/-- The cast to `T` and back. -/
def CType.cast (v : Word) : CType → Word
  | .int8_t => (v.setWidth 8).signExtend 32
  | .int16_t => (v.setWidth 16).signExtend 32
  | .int32_t => v
  | .uint8_t => (v.setWidth 8).setWidth 32
  | .uint16_t => (v.setWidth 16).setWidth 32

/-! ## Frames -/

/-- `rank2reg`. -/
def rank2reg : List Reg :=
  [1#5, 8#5, 9#5, 18#5, 19#5, 20#5, 21#5, 22#5, 23#5, 24#5, 25#5, 26#5, 27#5]

/-- The registers of a mask, in rank order. -/
def maskRegs (rmask : Word) : List Reg :=
  (List.range 13).filterMap fun bit =>
    if rmask.getLsbD bit then some (rank2reg.getD bit 0#5) else none

/-- `FRAME_SAVE_SPAN`. -/
def FRAME_SAVE_SPAN : Word := 52#32

/-- `frame_top`: the pointer to `top`, as an offset that the saves count down from. -/
def frameTop (s : State H) (top : Word) : Option Ptr :=
  let rel := top - s.writable.base
  if rel - FRAME_SAVE_SPAN ≤ s.writable.len - FRAME_SAVE_SPAN then
    some (s.writable.ptr, rel.toNat)
  else none

/-- The run of `SAVE`s: `q` is the offset to store below.  Where `frame_top` lets a frame through that
begins below the buffer, which only a writable region of less than 52 bytes does, the source goes on
below it, and the offset stays at 0 here. -/
def saveFast (r : Run H) (b : Buf) : Nat → List Reg → Run H
  | _, [] => r
  | q, i :: regs => saveFast { r with s := stLe r.s (b, q - 4) 4 (r.s.x i) } b (q - 4) regs

/-- `prologue_slow`. -/
def prologueSlow (h : Hooks H) (r : Run H) : Word → List Reg → Run H
  | _, [] => r
  | addr, i :: regs => prologueSlow h (store h r (addr - 4#32) (r.s.x i) 4) (addr - 4#32) regs

/-- `h_prologue` up to the cursor. -/
def prologue (h : Hooks H) (r : Run H) (w : Word) : Run H × Nat :=
  let regs := maskRegs (w >>> 13)
  let frame := w &&& 0x1fff#32
  let sp0 := r.s.x 2#5
  let r := match frameTop r.s sp0 with
    | some q => saveFast r q.1 q.2 regs
    | none => prologueSlow h r sp0 regs
  (put r 2#5 (sp0 - frame), regs.length)

/-- The run of `REST`s; below the buffer as in `saveFast`. -/
def restFast (r : Run H) (b : Buf) : Nat → List Reg → Run H
  | _, [] => r
  | q, i :: regs => restFast (put r i (ldLe r.s (b, q - 4) 4)) b (q - 4) regs

/-- `epilogue_slow`. -/
def epilogueSlow (h : Hooks H) (r : Run H) : Word → List Reg → Run H
  | _, [] => r
  | addr, i :: regs =>
    let (r, v) := load h r (addr - 4#32) 4
    epilogueSlow h (put r i v) (addr - 4#32) regs

/-- `h_epilogue` up to the jump. -/
def epilogue (h : Hooks H) (r : Run H) (w : Word) : Run H × Nat :=
  let regs := maskRegs (w >>> 13)
  let frame := w &&& 0x1fff#32
  let top := r.s.x 2#5 + frame
  let r := match frameTop r.s top with
    | some q => restFast r q.1 q.2 regs
    | none => epilogueSlow h r top regs
  (put r 2#5 top, regs.length)

/-! ## The bulk memory instruction -/

/-- `pmo_wspan`: a pointer and the bytes from it to the end of the region. -/
def pmoWspan (s : State H) (a : Word) : Option (Ptr × Nat) :=
  let rel := a - s.writable.base
  if rel < s.writable.len then
    some ((s.writable.ptr, rel.toNat), (s.writable.len - rel).toNat)
  else none

/-- `pmo_span`. -/
def pmoSpan (s : State H) (a : Word) : Option (Ptr × Nat) :=
  match pmoWspan s a with
  | some q => some q
  | none =>
    let rel := a - s.readonly.base
    if rel < s.readonly.len then
      some ((s.readonly.ptr, rel.toNat), (s.readonly.len - rel).toNat)
    else none

/-- The bytes available from an address; 0 on a miss. -/
def avail (q : Option (Ptr × Nat)) : Nat :=
  match q with
  | none => 0
  | some (_, n) => n

/-- Byte `i` of a span. -/
def spanByte (s : State H) (q : Option (Ptr × Nat)) (i : Nat) : Byte :=
  match q with
  | none => 0#8
  | some (p, _) => s.byte p i

/-- `memmove(d, q, n)` within the state. -/
def memmove (s : State H) (d q : Ptr) (n : Nat) : State H :=
  { s with mem := fun b o =>
      if b = d.1 ∧ d.2 ≤ o ∧ o < d.2 + n then s.byte q (o - d.2) else s.mem b o }

/-- `memset(d, v, n)`. -/
def memset (s : State H) (d : Ptr) (v : Byte) (n : Nat) : State H :=
  { s with mem := fun b o => if b = d.1 ∧ d.2 ≤ o ∧ o < d.2 + n then v else s.mem b o }

/-- One byte of a copy that missed: from `from_` to `to_`, by way of the callback if need be. -/
def copyByte (h : Hooks H) (r : Run H) (to_ from_ : Word) : Run H :=
  let (r, v) := match pmoSpan r.s from_ with
    | some (p, _) => (r, (r.s.byte p 0).setWidth 32)
    | none => r.callback h .load from_ 0#32
  match pmoWspan r.s to_ with
  | some (p, _) => { r with s := r.s.setByte p 0 (v.extractLsb' 0 8) }
  | none => (r.callback h .store to_ v).1

/-- One byte of a fill that missed. -/
def fillByte (h : Hooks H) (r : Run H) (to_ v : Word) : Run H :=
  match pmoWspan r.s to_ with
  | some (p, _) => { r with s := r.s.setByte p 0 (v.extractLsb' 0 8) }
  | none => (r.callback h .store to_ v).1

/-- The first `i < n` that `p` holds of. -/
def firstIndex (p : Nat → Bool) (n : Nat) : Option Nat := (List.range n).find? p

/-- `purv_memop`: the run after it and its fuel. -/
def purvMemop (h : Hooks H) (r : Run H) (f3 : Nat) (rd rs1 rs2 : Reg) : Run H × Nat :=
  let A := r.s.x rd
  let B := r.s.x rs1
  let N := r.s.x rs2
  match f3 with
  | 0 =>
    let r' := match pmoWspan r.s A, pmoSpan r.s B with
      | some (d, da), some (q, sa) =>
        if N.toNat ≤ da ∧ N.toNat ≤ sa then some { r with s := memmove r.s d q N.toNat } else none
      | _, _ => none
    let missed := (List.range N.toNat).foldl (fun r i =>
      let j : Word := if A > B then N - 1#32 - BitVec.ofNat 32 i else BitVec.ofNat 32 i
      copyByte h r (A + j) (B + j)) r
    (r'.getD missed, (N >>> 2).toNat)
  | 1 =>
    let r' := match pmoWspan r.s A with
      | some (d, da) =>
        if N.toNat ≤ da then some { r with s := memset r.s d (B.extractLsb' 0 8) N.toNat } else none
      | none => none
    let missed := (List.range N.toNat).foldl (fun r i =>
      fillByte h r (A + BitVec.ofNat 32 i) B) r
    (r'.getD missed, (N >>> 2).toNat)
  | 2 =>
    let x := pmoSpan r.s A
    let y := pmoSpan r.s B
    let n := min (min N.toNat (avail x)) (avail y)
    match firstIndex (fun i => spanByte r.s x i != spanByte r.s y i) n with
    | some i => (put r rd ((spanByte r.s x i).setWidth 32 - (spanByte r.s y i).setWidth 32), i + 1)
    | none => (put r rd 0#32, n)
  | 3 =>
    let x := pmoSpan r.s A
    let n := min N.toNat (avail x)
    match firstIndex (fun i => spanByte r.s x i == B.extractLsb' 0 8) n with
    | some i => (put r rd (A + BitVec.ofNat 32 i), i + 1)
    | none => (put r rd 0#32, n)
  | 4 =>
    let x := pmoSpan r.s A
    let len := (firstIndex (fun i => spanByte r.s x i == 0#8) (avail x)).getD (avail x)
    -- `len + 1` is a sum of 32-bit values
    (put r rd (BitVec.ofNat 32 len), (BitVec.ofNat 32 len + 1#32).toNat)
  | 6 =>
    let x := pmoSpan r.s A
    match firstIndex (fun i => spanByte r.s x i == B.extractLsb' 0 8 || spanByte r.s x i == 0#8)
        (avail x) with
    | some i =>
      (put r rd (if spanByte r.s x i = B.extractLsb' 0 8 then A + BitVec.ofNat 32 i else 0#32),
        i + 1)
    | none => (put r rd 0#32, avail x)
  | f3 =>
    -- `strcmp` (5) and `strncmp` (7); the field has three bits
    let x := pmoSpan r.s A
    let y := pmoSpan r.s B
    let n := min (min (if f3 = 7 then N.toNat else 0xffffffff) (avail x)) (avail y)
    match firstIndex (fun i => spanByte r.s x i != spanByte r.s y i || spanByte r.s x i == 0#8) n
      with
    | some i => (put r rd ((spanByte r.s x i).setWidth 32 - (spanByte r.s y i).setWidth 32), i + 1)
    | none => (put r rd 0#32, n)

/-! ## Dispatch -/

/-- Where the cursor goes after an op: `n` words forward, to an op index (`RELOC`), to the target of
an indirect jump, or to the next word after a trap, unless its handler stopped. -/
inductive Goto where
  | fall (n : Nat)
  | reloc (idx : Word)
  | indirect (t : Word)
  | trap (stop : Bool)
  deriving DecidableEq

/-- `LOAD`. -/
def hLoad (h : Hooks H) (r : Run H) (w : Word) (T : CType) : Run H :=
  if TC_A w ≠ 0#5 then
    let (r, v) := load h r (r.s.x (TC_B w) + TC_IMM w) T.size
    put r (TC_A w) (T.cast v)
  else r

/-- `STORE`. -/
def hStore (h : Hooks H) (r : Run H) (w : Word) (n : Nat) : Run H :=
  store h r (r.s.x (TC_B w) + TC_IMM w) (r.s.x (TC_A w)) n

/-- A branch handler. -/
def hBranch (r : Run H) (p w : Word) (taken : Bool) : Run H × Nat × Goto :=
  (r, 1, if taken then .reloc (p + (TC_IMM w).sshiftRight 2) else .fall 1)

/-- `LOADBZ`; `w2` is the word after the op. -/
def hLoadBz (h : Hooks H) (r : Run H) (p w w2 : Word) (T : CType) : Run H × Nat × Goto :=
  let (r, v) := load h r (r.s.x (TC_B w) + TC_IMM w) T.size
  let v := T.cast v
  (put r (TC_A w) v, 2,
    if (v == 0#32) == (w2 &&& 1#32 == 1#32) then .reloc (p + w2.sshiftRight 2) else .fall 2)

/-- The first load of `LWLW` and `VCALL`, and then the second: the value. -/
def loadTwice (h : Hooks H) (r : Run H) (w : Word) : Run H × Word :=
  let (r, v) := load h r (r.s.x (TC_B w) + TC_O1 w) 4
  load h r (v + TC_O2 w) 4

/-- `h_lwsw`. -/
def hLwsw (h : Hooks H) (r : Run H) (w : Word) : Run H :=
  let (r, v) := load h r (r.s.x (TC_B w) + TC_W1 w) 4
  let r := put r (TC_A w) v
  store h r (r.s.x (TC_C w) + TC_W2 w) v 4

/-- `h_trap`. -/
def hTrap (h : Hooks H) (r : Run H) (p w : Word) : Run H × Nat × Goto :=
  let t : Trap := if TC_OP w = RISCV_OP_ECALL then .ecall
    else if TC_OP w = RISCV_OP_EBREAK then .ebreak else .illegal
  let (r, stop) := (r.fault (p <<< 2) w).trap h t
  (r, 1, .trap stop)

/-- The handlers of `tbl`: op word `w` at index `p`, with `w2` the word after it. -/
def dispatch (h : Hooks H) (r : Run H) (p w w2 : Word) : Run H × Nat × Goto :=
  let A := TC_A w
  let b := r.s.x (TC_B w)
  let c := r.s.x (TC_C w)
  let imm := TC_IMM w
  match TC_OP w with
  | RISCV_OP_ADD => (put r A (b + c), 1, .fall 1)
  | RISCV_OP_SUB => (put r A (b - c), 1, .fall 1)
  | RISCV_OP_SLL => (put r A (b <<< (c &&& 31#32)), 1, .fall 1)
  | RISCV_OP_SLT => (put r A (if b.slt c then 1#32 else 0#32), 1, .fall 1)
  | RISCV_OP_SLTU => (put r A (if b.ult c then 1#32 else 0#32), 1, .fall 1)
  | RISCV_OP_XOR => (put r A (b ^^^ c), 1, .fall 1)
  | RISCV_OP_SRL => (put r A (b >>> (c &&& 31#32)), 1, .fall 1)
  | RISCV_OP_SRA => (put r A (b.sshiftRight (c &&& 31#32).toNat), 1, .fall 1)
  | RISCV_OP_OR => (put r A (b ||| c), 1, .fall 1)
  | RISCV_OP_AND => (put r A (b &&& c), 1, .fall 1)
  | RISCV_OP_ADDI => (put r A (b + imm), 1, .fall 1)
  | RISCV_OP_SLLI => (put r A (b <<< (imm &&& 31#32)), 1, .fall 1)
  | RISCV_OP_SLTI => (put r A (if b.slt imm then 1#32 else 0#32), 1, .fall 1)
  | RISCV_OP_SLTIU => (put r A (if b.ult imm then 1#32 else 0#32), 1, .fall 1)
  | RISCV_OP_XORI => (put r A (b ^^^ imm), 1, .fall 1)
  | RISCV_OP_SRLI => (put r A (b >>> (imm &&& 31#32)), 1, .fall 1)
  | RISCV_OP_ORI => (put r A (b ||| imm), 1, .fall 1)
  | RISCV_OP_ANDI => (put r A (b &&& imm), 1, .fall 1)
  | RISCV_OP_SRAI => (put r A (b.sshiftRight (imm &&& 31#32).toNat), 1, .fall 1)
  | RISCV_OP_MUL => (put r A (b * c), 1, .fall 1)
  | RISCV_OP_MULH =>
    (put r A (((b.signExtend 64 * c.signExtend 64) >>> 32).setWidth 32), 1, .fall 1)
  | RISCV_OP_MULHSU =>
    (put r A (((b.signExtend 64 * c.setWidth 64) >>> 32).setWidth 32), 1, .fall 1)
  | RISCV_OP_MULHU =>
    (put r A (((b.setWidth 64 * c.setWidth 64) >>> 32).setWidth 32), 1, .fall 1)
  | RISCV_OP_DIV =>
    (put r A (if c = 0#32 then 0xffffffff#32
      else if b = 0x80000000#32 ∧ c = 0xffffffff#32 then b else b.sdiv c), 1, .fall 1)
  | RISCV_OP_DIVU => (put r A (if c = 0#32 then 0xffffffff#32 else b / c), 1, .fall 1)
  | RISCV_OP_REM =>
    (put r A (if c = 0#32 then b
      else if b = 0x80000000#32 ∧ c = 0xffffffff#32 then 0#32 else b.srem c), 1, .fall 1)
  | RISCV_OP_REMU => (put r A (if c = 0#32 then b else b % c), 1, .fall 1)
  | RISCV_OP_LB => (hLoad h r w .int8_t, 1, .fall 1)
  | RISCV_OP_LH => (hLoad h r w .int16_t, 1, .fall 1)
  | RISCV_OP_LW => (hLoad h r w .int32_t, 1, .fall 1)
  | RISCV_OP_LBU => (hLoad h r w .uint8_t, 1, .fall 1)
  | RISCV_OP_LHU => (hLoad h r w .uint16_t, 1, .fall 1)
  | RISCV_OP_SB => (hStore h r w 1, 1, .fall 1)
  | RISCV_OP_SH => (hStore h r w 2, 1, .fall 1)
  | RISCV_OP_SW => (hStore h r w 4, 1, .fall 1)
  | RISCV_OP_BEQ => hBranch r p w (r.s.x A == b)
  | RISCV_OP_BNE => hBranch r p w (r.s.x A != b)
  | RISCV_OP_BLT => hBranch r p w ((r.s.x A).slt b)
  | RISCV_OP_BGE => hBranch r p w (!(r.s.x A).slt b)
  | RISCV_OP_BLTU => hBranch r p w ((r.s.x A).ult b)
  | RISCV_OP_BGEU => hBranch r p w (!(r.s.x A).ult b)
  | RISCV_OP_JAL => (r.wr A (p <<< 2 + 4#32), 1, .reloc (p + (TC_JOFF w).sshiftRight 2))
  | RISCV_OP_JALR => (r.wr A (p <<< 2 + 4#32), 1, .indirect ((b + imm) &&& ~~~1#32))
  | RISCV_OP_LUI => (put r A (TC_UIMM w <<< 12), 1, .fall 1)
  | RISCV_OP_AUIPC => (put r A (p <<< 2 + TC_UIMM w <<< 12), 1, .fall 1)
  | RISCV_OP_NOP => (r, 1, .fall 1)
  | RISCV_OP_PROLOGUE =>
    let (r, cnt) := prologue h r w
    (r, cnt + 1, .fall 1)
  | RISCV_OP_EPILOGUE =>
    let (r, cnt) := epilogue h r w
    (r, cnt + 2, .indirect (r.s.x 1#5 &&& ~~~1#32))
  | RISCV_OP_LI_LO => (put r A (TC_JOFF w), 1, .fall 1)
  | RISCV_OP_LI_HI => (put r A (TC_JOFF w + RISCV_HALF), 1, .fall 1)
  | RISCV_OP_SHADD => (put r A (b + c <<< TC_SH w), 2, .fall 1)
  | RISCV_OP_LWX =>
    let (r, v) := load h r (b + c + TC_OFF11 w) 4
    (put r A v, 2, .fall 1)
  | RISCV_OP_LWLW =>
    let (r, v) := loadTwice h r w
    (put r A v, 2, .fall 1)
  | RISCV_OP_LW_BZ => hLoadBz h r p w w2 .int32_t
  | RISCV_OP_LBU_BZ => hLoadBz h r p w w2 .uint8_t
  | RISCV_OP_LWSW => (hLwsw h r w, 2, .fall 1)
  | RISCV_OP_VCALL =>
    let (r, v) := loadTwice h r w
    let t := v &&& ~~~1#32
    (put (put r A t) 1#5 (p <<< 2 + 4#32), 3, .indirect t)
  | RISCV_OP_MEMOP =>
    let (r, fuel) := purvMemop h r (w &&& 7#32).toNat A (TC_B w) (TC_C w)
    (r, fuel + 1, .fall 1)
  | _ => hTrap h r p w

/-! ## The loop -/

/-- Why the loop returned: no program or a pc outside it, the budget, or a handler.  `wild` is a
cursor off the array, where the source reads whatever follows it; `running` is no return, but the
dispatches that the model was given were too few. -/
inductive Stop where
  | window
  | budget
  | trap
  | wild
  | running
  deriving DecidableEq, Repr

/-- What `RiscvEmulatorLoop` leaves behind. -/
structure Result (H : Type) where
  r : Run H
  k : Nat
  stop : Stop

/-- The threaded loop with the cursor at index `p`. -/
def loopFrom (h : Hooks H) (ops : List Word) (clen : Word) (max : Nat) :
    Nat → Run H → Nat → Nat → Result H
  | 0, r, _, k => ⟨r, k, .running⟩
  | fuel + 1, r, p, k =>
    match ops[p]? with
    | none => ⟨r, k, .wild⟩
    | some w =>
      match dispatch h r (BitVec.ofNat 32 p) w (ops.getD (p + 1) 0#32) with
      | (r, c, .fall n) => loopFrom h ops clen max fuel r (p + n) (k + c)
      | (r, c, .reloc idx) =>
        if k + c ≥ max then ⟨r.setPc (idx <<< 2), k + c, .budget⟩
        else loopFrom h ops clen max fuel r idx.toNat (k + c)
      | (r, c, .indirect t) =>
        if t ≥ clen then ⟨r.setPc t, k + c, .window⟩
        else if k + c ≥ max then ⟨r.setPc t, k + c, .budget⟩
        else loopFrom h ops clen max fuel r (t >>> 2).toNat (k + c)
      | (r, c, .trap true) => ⟨r, k + c, .trap⟩
      | (r, c, .trap false) =>
        if k + c ≥ max then ⟨r.setPc (BitVec.ofNat 32 p <<< 2 + 4#32), k + c, .budget⟩
        else loopFrom h ops clen max fuel r (p + 1) (k + c)

/-- `RiscvEmulatorLoop` of `purva.c` over `prog`.  Every op counts at least one, and a run of ops
without a budget check moves forward through the array, which bounds the dispatches. -/
def riscvEmulatorLoop (h : Hooks H) (prog : Transcoded) (r : Run H) (max : Nat) : Result H :=
  if r.s.pc ≥ prog.code_len then ⟨r, 0, .window⟩
  else
    loopFrom h prog.ops prog.code_len max (max + prog.ops.length + 1) r (r.s.pc >>> 2).toNat 0

end Purv.Purva
