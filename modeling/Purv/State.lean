import Purv.Lib.Bits

/-!
# The emulator state (`purv.h`)

`State` is `RiscvEmulatorState_t` with the host beside it: the bytes of the host's buffers and
whatever else the host keeps (`host`, which no engine touches).  A host pointer is a buffer and
an offset into it, buffer `0` is `NULL`, and two regions alias iff they name one buffer.

* `memXlate` — the address translation of `purv.c` and `purvs.c`: `Region.hit` on the writable
  region, then, for a read, on the read-only one;
* `Hooks` — the handlers and the memory callback the state points to;
* `Run` — a state together with the log of the host calls made so far.  The log is what a claim
  about "the sequence of handler invocations" speaks of; no engine reads it.
-/

namespace Purv

open Bits

abbrev Word := BitVec 32
abbrev Half := BitVec 16
abbrev Byte := BitVec 8
abbrev Reg := BitVec 5

/-- A host allocation; `0` is `NULL`. -/
abbrev Buf := Nat

/-- `RISCV_HALF`: the boundary of stack and heap. -/
def RISCV_HALF : Word := 0x80000000

/-- `RiscvEmulatorRegion_t`: `len` host bytes from `ptr`, at guest addresses from `base`. -/
structure Region where
  ptr : Buf
  len : Word
  base : Word

/-- `rel < len && n <= len - rel` for `rel = addr - base`: the offset of `[addr, addr + n)`. -/
def Region.hit (g : Region) (addr n : Word) : Option Nat :=
  let rel := addr - g.base
  if rel < g.len ∧ n ≤ g.len - rel then some rel.toNat else none

/-- `RiscvEmulatorState`, the contents of the host's buffers, and the rest of the host. -/
structure State (H : Type) where
  pc : Word
  inst : Word
  x : Reg → Word
  readonly : Region
  writable : Region
  mem : Buf → Nat → Byte
  host : H

/-- A host pointer: a buffer and an offset. -/
abbrev Ptr := Buf × Nat

variable {H : Type}

/-- `mem_xlate`: `[addr, addr + n)` as a host pointer, or a miss. -/
def memXlate (s : State H) (addr n : Word) (write : Bool) : Option Ptr :=
  match s.writable.hit addr n with
  | some off => some (s.writable.ptr, off)
  | none =>
    if write then none else
    match s.readonly.hit addr n with
    | some off => some (s.readonly.ptr, off)
    | none => none

/-- `p[i]`. -/
def State.byte (s : State H) (p : Ptr) (i : Nat) : Byte := s.mem p.1 (p.2 + i)

/-- `p[i] = v`. -/
def State.setByte (s : State H) (p : Ptr) (i : Nat) (v : Byte) : State H :=
  { s with mem := fun b o => if b = p.1 ∧ o = p.2 + i then v else s.mem b o }

/-- `s->x[i] = v`, with no test of `i`. -/
def State.setX (s : State H) (i : Reg) (v : Word) : State H :=
  { s with x := fun j => if j = i then v else s.x j }

/-- `wr`: x0 is never written. -/
def State.wr (s : State H) (i : Reg) (v : Word) : State H :=
  if i = 0#5 then s else s.setX i v

/-- `RISCV_MEM_LOAD`, `RISCV_MEM_STORE`. -/
inductive MemOp where
  | load
  | store
  deriving DecidableEq, Repr

/-- The three traps with a handler. -/
inductive Trap where
  | ecall
  | ebreak
  | illegal
  deriving DecidableEq, Repr

/-- `RiscvEmulatorTrapFn`: the state the handler leaves, and whether it stops the loop. -/
abbrev TrapFn (H : Type) := State H → State H × Bool

/-- `RiscvEmulatorMemFn`. -/
abbrev MemFn (H : Type) := State H → MemOp → Word → Word → State H × Word

/-- The function pointers of the state; `none` is `NULL`. -/
structure Hooks (H : Type) where
  ecall : Option (TrapFn H)
  ebreak : Option (TrapFn H)
  illegal : Option (TrapFn H)
  callback : Option (MemFn H)

/-- A call into the host, with the state it was given. -/
inductive Call (H : Type) where
  | mem (op : MemOp) (addr value : Word) (s : State H)
  | trap (t : Trap) (s : State H)

/-- A state and the host calls made so far. -/
structure Run (H : Type) where
  s : State H
  log : List (Call H)

/-- `s->callback ? s->callback(s, op, addr, value) : 0`. -/
def Run.callback (h : Hooks H) (r : Run H) (op : MemOp) (addr value : Word) : Run H × Word :=
  match h.callback with
  | none => (r, 0)
  | some f =>
    let (s, v) := f r.s op addr value
    (⟨s, r.log ++ [.mem op addr value r.s]⟩, v)

/-- The handler of a trap and what a `NULL` one answers: `ecall` keeps running, the others stop. -/
def Hooks.handler (h : Hooks H) : Trap → Option (TrapFn H) × Bool
  | .ecall => (h.ecall, false)
  | .ebreak => (h.ebreak, true)
  | .illegal => (h.illegal, true)

/-- Call the handler of `t`: the run after it, and whether it stops the loop. -/
def Run.trap (h : Hooks H) (r : Run H) (t : Trap) : Run H × Bool :=
  match h.handler t with
  | (none, stop) => (r, stop)
  | (some f, _) =>
    let (s, stop) := f r.s
    (⟨s, r.log ++ [.trap t r.s]⟩, stop)

/-- `s->pc = pc; s->inst = inst`. -/
def Run.fault (r : Run H) (pc inst : Word) : Run H :=
  { r with s := { r.s with pc := pc, inst := inst } }

/-- `s->pc = pc`. -/
def Run.setPc (r : Run H) (pc : Word) : Run H :=
  { r with s := { r.s with pc := pc } }

/-- `wr` on the state of a run. -/
def Run.wr (r : Run H) (i : Reg) (v : Word) : Run H :=
  { r with s := r.s.wr i v }

/-- Every function pointer `NULL`. -/
def Hooks.null : Hooks H := ⟨none, none, none, none⟩

/-- A zeroed state with the code `bs` in buffer 1 and a writable region of `len` zero bytes at
`RISCV_HALF` in buffer 2. -/
def State.boot (bs : List Byte) (len : Nat) : State Unit where
  pc := 0#32
  inst := 0#32
  x := fun _ => 0#32
  readonly := ⟨1, BitVec.ofNat 32 bs.length, 0#32⟩
  writable := ⟨2, BitVec.ofNat 32 len, RISCV_HALF⟩
  mem := fun b o => if b = 1 then bs.getD o 0#8 else 0#8
  host := ()

/-! ## Registers and memory after an update -/

theorem wr_zero (s : State H) (v : Word) : s.wr 0#5 v = s := by simp [State.wr]

@[simp] theorem setX_x (s : State H) (i j : Reg) (v : Word) :
    (s.setX i v).x j = if j = i then v else s.x j := rfl

theorem wr_x (s : State H) (i j : Reg) (v : Word) :
    (s.wr i v).x j = if i ≠ 0#5 ∧ j = i then v else s.x j := by
  unfold State.wr
  split
  · rename_i h; simp [h]
  · rename_i h; simp [h]

@[simp] theorem wr_mem (s : State H) (i : Reg) (v : Word) : (s.wr i v).mem = s.mem := by
  unfold State.wr; split <;> rfl

@[simp] theorem wr_writable (s : State H) (i : Reg) (v : Word) :
    (s.wr i v).writable = s.writable := by
  unfold State.wr; split <;> rfl

@[simp] theorem wr_readonly (s : State H) (i : Reg) (v : Word) :
    (s.wr i v).readonly = s.readonly := by
  unfold State.wr; split <;> rfl

@[simp] theorem wr_pc (s : State H) (i : Reg) (v : Word) : (s.wr i v).pc = s.pc := by
  unfold State.wr; split <;> rfl

@[simp] theorem wr_inst (s : State H) (i : Reg) (v : Word) : (s.wr i v).inst = s.inst := by
  unfold State.wr; split <;> rfl

@[simp] theorem wr_host (s : State H) (i : Reg) (v : Word) : (s.wr i v).host = s.host := by
  unfold State.wr; split <;> rfl

/-- The hard zero survives every register write. -/
theorem wr_x_zero (s : State H) (i : Reg) (v : Word) : (s.wr i v).x 0#5 = s.x 0#5 := by
  rw [wr_x]
  split
  · rename_i h; exact absurd h.2.symm h.1
  · rfl

/-- A hit lies inside the region. -/
theorem Region.hit_some {g : Region} {addr n : Word} {off : Nat} (h : g.hit addr n = some off) :
    off = (addr - g.base).toNat ∧ off < g.len.toNat ∧ off + n.toNat ≤ g.len.toNat := by
  unfold Region.hit at h
  simp only at h
  split at h
  · rename_i hc
    cases h
    obtain ⟨h1, h2⟩ := hc
    rw [BitVec.lt_def] at h1
    rw [BitVec.le_def, BitVec.toNat_sub_of_le (BitVec.le_of_lt h1)] at h2
    exact ⟨rfl, h1, by omega⟩
  · cases h

end Purv
