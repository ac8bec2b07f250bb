import Purv.GdbFrames
import Purv.Window
import Purv.Lib.RingStack

/-!
# Breakpoints, history and execution control of the gdb stub (`gdbstub.c`)

* `Stub` — the breakpoint table and the ring of undo records;
* `bpHit`, `bpAdd`, `bpDel` — the table;
* `stepRecord`, `stepReverse` — one instruction forward, with a record of it, and back;
* `gdbRun` — run until a stop; `gdbRun_iff`, at the first step with a reason to stop;
* `stepReverse_restores` — over any sequence of steps, reverse steps and register writes the ring
  is the stack of the recorded steps.
-/

namespace Purv.Gdb

open Function RingStack

variable {H : Type}

/-! ## Registers and memory -/

/-- `reg_get`: x0 to x31, and pc. -/
def regGet (s : State H) (i : Nat) : Word := if i < 32 then s.x (BitVec.ofNat 5 i) else s.pc

/-- `reg_set`: x0 stays zero. -/
def regSet (s : State H) (i : Nat) (v : Word) : State H :=
  if i ≥ 32 then { s with pc := v }
  else if i ≠ 0 then s.setX (BitVec.ofNat 5 i) v
  else s

/-- `byte_at`. -/
def byteAt (s : State H) (a : Word) (write : Bool) : Option Ptr :=
  let rel := a - s.writable.base
  if rel < s.writable.len then some (s.writable.ptr, rel.toNat)
  else if write then none
  else
    let rel := a - s.readonly.base
    if rel < s.readonly.len then some (s.readonly.ptr, rel.toNat) else none

/-- One byte of `mem_write`. -/
def pokeByte (s : State H) (a : Word) (v : Byte) : State H :=
  match byteAt s a true with
  | some p => s.setByte p 0 v
  | none => s

/-- `mem_write`. -/
def memWrite (s : State H) (addr : Word) : List Byte → State H
  | [] => s
  | v :: src => memWrite (pokeByte s addr v) (addr + 1#32) src

/-! ## The stub's state -/

/-- `GDB_MAX_BP`. -/
def GDB_MAX_BP : Nat := 64

/-- `HIST_FRAMES`. -/
def HIST_FRAMES : Nat := 65536

/-- A write of a step: `addr`, and the `len` old bytes. -/
structure Write where
  addr : Word
  old : List Byte

/-- `Frame`: the registers before a step, pc in slot 32, and the writes it made. -/
structure Frame where
  reg : Nat → Word
  w : List Write
  overflow : Bool

/-- The globals of the stub; `alloc` says that `g_hist` is not `NULL`. -/
structure Stub where
  g_bp : Nat → Word
  g_nbp : Nat
  alloc : Bool
  g_hist : Nat → Frame
  g_head : Nat
  g_count : Nat

/-- The stub as `RiscvEmulatorGdbServe` begins: no breakpoint and no history. -/
def Stub.Fresh (g : Stub) : Prop := g.g_nbp = 0 ∧ g.g_head = 0 ∧ g.g_count = 0

/-- A stub with no breakpoint and no history. -/
def freshStub : Stub := ⟨fun _ => 0#32, 0, true, fun _ => ⟨fun _ => 0#32, [], false⟩, 0, 0⟩

/-- `bp_hit`. -/
def bpHit (g : Stub) (addr : Word) : Bool := (List.range g.g_nbp).any fun i => g.g_bp i == addr

/-- `bp_add`. -/
def bpAdd (g : Stub) (addr : Word) : Stub :=
  if bpHit g addr ∨ g.g_nbp ≥ GDB_MAX_BP then g
  else { g with g_bp := update g.g_bp g.g_nbp addr, g_nbp := g.g_nbp + 1 }

/-- `bp_del`: the last entry takes the place of the first that matches. -/
def bpDel (g : Stub) (addr : Word) : Stub :=
  match (List.range g.g_nbp).find? fun i => g.g_bp i == addr with
  | some i => { g with g_bp := update g.g_bp i (g.g_bp (g.g_nbp - 1)), g_nbp := g.g_nbp - 1 }
  | none => g

/-- `step_one`. -/
def stepOne (h : Hooks H) (r : Run H) : Run H := (riscvEmulatorLoop h r 1).r

/-- The record of a step from `s`. -/
def frameOf (s : State H) : Frame where
  reg := fun i => if i < 32 then s.x (BitVec.ofNat 5 i) else s.pc
  w := []
  overflow := false

/-- `step_record`.  No hook of the engine reports its stores, so the record holds none. -/
def stepRecord (h : Hooks H) (g : Stub) (r : Run H) : Stub × Run H :=
  if g.alloc = false then (g, stepOne h r)
  else
    let g' := { g with
      g_hist := update g.g_hist ((g.g_head + g.g_count) % HIST_FRAMES) (frameOf r.s)
      g_head := if g.g_count = HIST_FRAMES then (g.g_head + 1) % HIST_FRAMES else g.g_head
      g_count := if g.g_count = HIST_FRAMES then g.g_count else g.g_count + 1 }
    (g', stepOne h r)

/-- The registers of a record: x1 to x31, and pc. -/
def restoreRegs (s : State H) (f : Frame) : State H :=
  { s with
    x := fun i => if i = 0#5 then s.x i else f.reg i.toNat
    pc := f.reg 32 }

/-- `step_reverse`, with what it returns. -/
def stepReverse (g : Stub) (s : State H) : Stub × State H × Int :=
  if g.g_count = 0 then (g, s, 0)
  else
    let f := g.g_hist ((g.g_head + g.g_count - 1) % HIST_FRAMES)
    let g' := { g with g_count := g.g_count - 1 }
    if f.overflow then (g', s, -1)
    else (g', restoreRegs (f.w.foldr (fun w s => memWrite s w.addr w.old) s) f, 1)

/-! ## Running -/

/-- `STOP_TRAP`, `STOP_INT`, `STOP_EXIT`. -/
inductive StopReason where
  | trap
  | int
  | exit
  deriving DecidableEq, Repr

/-- What `gdb_run` does after the step that makes `tick`: `halted` reads `*halted`, and
`interrupt t` says that the poll at `t` reads 0x03. -/
def outcome (halted : H → Bool) (interrupt : Nat → Bool) (cont : Bool) (tick : Nat) (g : Stub)
    (s : State H) : Option StopReason :=
  if halted s.host then some .exit
  else if cont = false then some .trap
  else if bpHit g s.pc then some .trap
  else if tick % 1024 = 0 ∧ interrupt tick then some .int
  else none

/-- A continue goes on. -/
theorem outcome_none {halted : H → Bool} {interrupt : Nat → Bool} {tick : Nat} {g : Stub}
    {s : State H} :
    outcome halted interrupt true tick g s = none ↔
      halted s.host = false ∧ bpHit g s.pc = false ∧ ¬ (tick % 1024 = 0 ∧ interrupt tick) := by
  unfold outcome
  cases halted s.host <;> cases bpHit g s.pc <;> simp

/-- A continue stops at a breakpoint. -/
theorem outcome_trap {halted : H → Bool} {interrupt : Nat → Bool} {tick : Nat} {g : Stub}
    {s : State H} :
    outcome halted interrupt true tick g s = some .trap ↔
      halted s.host = false ∧ bpHit g s.pc := by
  unfold outcome
  cases halted s.host <;> cases bpHit g s.pc <;> simp

/-- `gdb_run`, for `fuel` steps at most. -/
def gdbRun (h : Hooks H) (halted : H → Bool) (interrupt : Nat → Bool) (cont : Bool) :
    Nat → Nat → Stub → Run H → Option (Stub × Run H × StopReason)
  | 0, _, _, _ => none
  | fuel + 1, tick, g, r =>
    let (g, r) := stepRecord h g r
    match outcome halted interrupt cont (tick + 1) g r.s with
    | some reason => some (g, r, reason)
    | none => gdbRun h halted interrupt cont fuel (tick + 1) g r

/-- The stub and the run after `k` steps. -/
def steps (h : Hooks H) : Nat → Stub → Run H → Stub × Run H
  | 0, g, r => (g, r)
  | k + 1, g, r => steps h k (stepRecord h g r).1 (stepRecord h g r).2

section
variable {h : Hooks H} {halted : H → Bool} {interrupt : Nat → Bool} {cont : Bool}

/-- **`gdb_run` stops at the first step with a reason to.** -/
theorem gdbRun_iff {fuel tick : Nat} {g g' : Stub} {r r' : Run H} {reason : StopReason} :
    gdbRun h halted interrupt cont fuel tick g r = some (g', r', reason) ↔
      ∃ k < fuel, steps h (k + 1) g r = (g', r') ∧
        outcome halted interrupt cont (tick + k + 1) g' r'.s = some reason ∧
        ∀ j < k, outcome halted interrupt cont (tick + j + 1) (steps h (j + 1) g r).1
          (steps h (j + 1) g r).2.s = none := by
  induction fuel generalizing tick g r with
  | zero => simp [gdbRun]
  | succ fuel ih =>
    unfold gdbRun
    simp only
    cases hout : outcome halted interrupt cont (tick + 1) (stepRecord h g r).1
        (stepRecord h g r).2.s with
    | some reason' =>
      simp only [Option.some.injEq, Prod.mk.injEq]
      constructor
      · rintro ⟨rfl, rfl, rfl⟩
        exact ⟨0, Nat.succ_pos _, rfl, hout, fun j hj => absurd hj (Nat.not_lt_zero j)⟩
      · rintro ⟨k, hk, hst, ho, hj⟩
        cases k with
        | zero =>
          cases hst
          rw [Nat.add_zero] at ho
          exact ⟨rfl, rfl, Option.some.inj (hout.symm.trans ho)⟩
        | succ k =>
          have := hj 0 (Nat.succ_pos k)
          rw [Nat.add_zero] at this
          have hnone := this.symm.trans hout
          cases hnone
    | none =>
      simp only
      rw [ih]
      constructor
      · rintro ⟨k, hk, hst, ho, hj⟩
        refine ⟨k + 1, by omega, hst, ?_, ?_⟩
        · rw [show tick + (k + 1) + 1 = tick + 1 + k + 1 by omega]
          exact ho
        · intro j hjk
          cases j with
          | zero => exact hout
          | succ j =>
            rw [show tick + (j + 1) + 1 = tick + 1 + j + 1 by omega]
            exact hj j (by omega)
      · rintro ⟨k, hk, hst, ho, hj⟩
        cases k with
        | zero =>
          cases hst
          rw [Nat.add_zero, hout] at ho
          cases ho
        | succ k =>
          refine ⟨k, by omega, hst, ?_, ?_⟩
          · rw [show tick + 1 + k + 1 = tick + (k + 1) + 1 by omega]
            exact ho
          · intro j hjk
            rw [show tick + 1 + j + 1 = tick + (j + 1) + 1 by omega]
            exact hj (j + 1) (by omega)

/-- It does stop if some step has one. -/
theorem gdbRun_some {fuel tick : Nat} {g : Stub} {r : Run H}
    (hstop : ∃ k < fuel, outcome halted interrupt cont (tick + k + 1) (steps h (k + 1) g r).1
      (steps h (k + 1) g r).2.s ≠ none) :
    ∃ o, gdbRun h halted interrupt cont fuel tick g r = some o := by
  classical
  obtain ⟨hlt, hne⟩ := Nat.find_spec hstop
  obtain ⟨reason, hout⟩ := Option.ne_none_iff_exists'.mp hne
  refine ⟨_, gdbRun_iff.mpr ⟨Nat.find hstop, hlt, rfl, hout, fun j hj => ?_⟩⟩
  by_contra hsome
  exact Nat.find_min hstop hj ⟨Nat.lt_trans hj hlt, hsome⟩
/-- A step leaves the breakpoints alone. -/
theorem stepRecord_run (g : Stub) (r : Run H) : (stepRecord h g r).2 = stepOne h r := by
  unfold stepRecord
  split <;> rfl

theorem stepRecord_bp (g : Stub) (r : Run H) (a : Word) :
    bpHit (stepRecord h g r).1 a = bpHit g a := by
  unfold stepRecord
  split <;> rfl

theorem steps_bp (k : Nat) (g : Stub) (r : Run H) (a : Word) :
    bpHit (steps h k g r).1 a = bpHit g a := by
  induction k generalizing g r with
  | zero => rfl
  | succ k ih =>
    unfold steps
    rw [ih, stepRecord_bp]

end

/-! ## The history -/

/-- The ring of the stub. -/
def Stub.ring (g : Stub) : Buffer Frame := ⟨g.g_hist, g.g_head, g.g_count⟩

/-- What a debugger does to a run: a step, a reverse step, a register write. -/
inductive Op where
  | step
  | reverse
  | set (i : Nat) (v : Word)

/-- The stub and the run after an operation. -/
def Op.apply (h : Hooks H) (g : Stub) (r : Run H) : Op → Stub × Run H
  | .step => stepRecord h g r
  | .reverse => ((stepReverse g r.s).1, { r with s := (stepReverse g r.s).2.1 })
  | .set i v => (g, { r with s := regSet r.s i v })

/-- The stack of recorded steps, the newest first: the registers and pc that each began with.  A
push onto `HIST_FRAMES` of them drops the oldest. -/
def Op.stack (g : Stub) (s : State H) (l : List ((Reg → Word) × Word)) :
    Op → List ((Reg → Word) × Word)
  | .step => if g.alloc = false then l else ((s.x, s.pc) :: l).take HIST_FRAMES
  | .reverse => l.tail
  | .set _ _ => l

/-- A stub, a run, and the stack beside them. -/
structure Session (H : Type) where
  g : Stub
  r : Run H
  stack : List ((Reg → Word) × Word)

/-- The session after an operation. -/
def Session.after (h : Hooks H) (t : Session H) (op : Op) : Session H :=
  ⟨(op.apply h t.g t.r).1, (op.apply h t.g t.r).2, op.stack t.g t.r.s t.stack⟩

/-- The record of a snapshot. -/
def frameAt (e : (Reg → Word) × Word) : Frame where
  reg := fun i => if i < 32 then e.1 (BitVec.ofNat 5 i) else e.2
  w := []
  overflow := false

/-- The ring is the stack. -/
structure Session.Inv (t : Session H) : Prop where
  count : t.g.g_count ≤ HIST_FRAMES
  contents : contents HIST_FRAMES t.g.ring = t.stack.map frameAt

/-- What `step_reverse` does, by the stack. -/
structure Session.Reverses (t : Session H) : Prop where
  /-- It returns 0, and changes nothing, exactly when no recorded step remains. -/
  empty : (stepReverse t.g t.r.s).2.2 = 0 ↔ t.stack = []
  unchanged : t.stack = [] → stepReverse t.g t.r.s = (t.g, t.r.s, 0)
  /-- Otherwise it returns 1, with the registers and pc of the newest, and the rest as it was. -/
  restores : ∀ x pc l, t.stack = (x, pc) :: l →
    (stepReverse t.g t.r.s).2 =
      ({ t.r.s with x := fun i => if i = 0#5 then t.r.s.x i else x i, pc := pc }, 1)

section
variable {h : Hooks H} {t : Session H}

theorem Session.Inv.reverses (hi : t.Inv) : t.Reverses := by
  have hempty : t.stack = [] ↔ t.g.g_count = 0 := by
    rw [← List.map_eq_nil_iff (f := frameAt), ← hi.contents]
    exact contents_nil
  have hcons : ∀ x pc l, t.stack = (x, pc) :: l → (stepReverse t.g t.r.s).2 =
      ({ t.r.s with x := fun i => if i = 0#5 then t.r.s.x i else x i, pc := pc }, 1) := by
    intro x pc l hl
    have hc := hi.contents
    rw [hl, List.map_cons] at hc
    have htop : t.g.g_hist ((t.g.g_head + t.g.g_count - 1) % HIST_FRAMES) = frameAt (x, pc) :=
      contents_top hc
    have hne : t.g.g_count ≠ 0 := by
      intro h0
      rw [← hempty, hl] at h0
      cases h0
    unfold stepReverse
    rw [if_neg hne, htop]
    have hlt : ∀ i : Reg, i.toNat < 32 := fun i => i.isLt
    simp [frameAt, restoreRegs, hlt]
  refine ⟨?_, ?_, hcons⟩
  · constructor
    · intro h0
      cases hl : t.stack with
      | nil => rfl
      | cons e l =>
        rw [hcons e.1 e.2 l hl] at h0
        cases h0
    · intro h0
      unfold stepReverse
      rw [if_pos (hempty.mp h0)]
  · intro h0
    unfold stepReverse
    rw [if_pos (hempty.mp h0)]

/-- A recorded step is a push. -/
theorem stepRecord_ring {g : Stub} (r : Run H) (ha : ¬ g.alloc = false) :
    (stepRecord h g r).1.ring = push HIST_FRAMES g.ring (frameOf r.s) := by
  unfold stepRecord Stub.ring push
  simp only [if_neg ha]
  by_cases hf : g.g_count = HIST_FRAMES
  · rw [if_pos hf, if_pos hf, hf]
    simp
  · rw [if_neg hf, if_neg hf]
    simp [hf]

/-- **One operation** keeps the ring and the stack alike. -/
theorem Session.Inv.after (hi : t.Inv) (op : Op) : (t.after h op).Inv := by
  cases op with
  | step =>
    by_cases ha : t.g.alloc = false
    · unfold Session.after Op.apply Op.stack stepRecord
      simp only [if_pos ha]
      exact ⟨hi.count, hi.contents⟩
    · have hle : t.g.ring.count ≤ HIST_FRAMES := hi.count
      have hring : (t.after h .step).g.ring = push HIST_FRAMES t.g.ring (frameOf t.r.s) :=
        stepRecord_ring t.r ha
      have hstack : (t.after h .step).stack =
          ((t.r.s.x, t.r.s.pc) :: t.stack).take HIST_FRAMES := if_neg ha
      refine ⟨?_, ?_⟩
      · have hcount := push_count hle (frameOf t.r.s)
        rw [← hring] at hcount
        exact hcount
      · rw [hring, contents_push (show 0 < HIST_FRAMES by decide) hle, hi.contents, hstack,
          List.map_take]
        rfl
  | reverse =>
    by_cases h0 : t.g.g_count = 0
    · have hstack : t.stack = [] := by
        rw [← List.map_eq_nil_iff (f := frameAt), ← hi.contents]
        exact contents_nil.mpr h0
      have hsame : (t.after h .reverse).g = t.g := by
        unfold Session.after Op.apply stepReverse
        simp [h0]
      refine ⟨by rw [hsame]; exact hi.count, ?_⟩
      rw [hsame, hi.contents]
      simp [Session.after, Op.stack, hstack]
    · have hring : (t.after h .reverse).g.ring = pop t.g.ring := by
        unfold Session.after Op.apply stepReverse
        simp only [if_neg h0]
        split <;> rfl
      have hcount : (t.after h .reverse).g.g_count = t.g.g_count - 1 :=
        congrArg Buffer.count hring
      refine ⟨by rw [hcount]; exact Nat.le_trans (Nat.sub_le _ _) hi.count, ?_⟩
      rw [hring, contents_pop, hi.contents, ← List.map_tail]
      rfl
  | set i v => exact ⟨hi.count, hi.contents⟩

end

/-- **Reverse stepping restores the registers exactly**: after every sequence of steps, reverse
steps and register writes, `step_reverse` goes by the stack of recorded steps. -/
theorem stepReverse_restores (h : Hooks H) {g : Stub} (hg : g.Fresh) (r : Run H) (ops : List Op) :
    (ops.foldl (Session.after h) ⟨g, r, []⟩).Reverses := by
  have hinv : ∀ (ops : List Op) (t : Session H), t.Inv → (ops.foldl (Session.after h) t).Inv := by
    intro ops
    induction ops with
    | nil => exact fun t ht => ht
    | cons op ops ih => exact fun t ht => ih _ (ht.after op)
  apply Session.Inv.reverses
  apply hinv
  refine ⟨?_, ?_⟩
  · show g.g_count ≤ HIST_FRAMES
    rw [hg.2.2]
    exact Nat.zero_le _
  · exact contents_nil.mpr hg.2.2

/-- Two steps of a boot state, and one back. -/
theorem stepReverse_restores_two :
    ([Op.step, .step, .reverse].foldl (Session.after Hooks.null)
      ⟨freshStub,
        ⟨State.boot [0x13#8, 0#8, 0#8, 0#8, 0x13#8, 0#8, 0#8, 0#8] 0, []⟩, []⟩).Reverses :=
  stepReverse_restores Hooks.null ⟨rfl, rfl, rfl⟩ _ _

end Purv.Gdb
