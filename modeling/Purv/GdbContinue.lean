import Purv.GdbStub
import Purv.GuestBytes

/-!
# A continue under gdb (`main.c`, `gdbstub.c`)

The stub learns of a stop of the engine from the halt flag of the reference host only.

* `MainHost`, `onIllegal`, `onOob`, `onEcall`, `onEbreak` — the host and its handlers;
* `Silent` — the engine stops at the next step and no handler halts: an `ebreak`, or a pc outside
  the code;
* `step_silent`, `step_halts` — every other stop halts;
* `continue_reports` — a continue reports its stops exactly when the silent ones are at
  breakpoints, or gdb interrupts.
-/

namespace Purv.Gdb

variable {U : Type}

/-- The globals of `main.c` that its handlers use, and what the guest wrote. -/
structure MainHost where
  g_halt : Bool
  g_exit : Word
  g_faulted : Bool
  g_user_mode : Bool
  g_brk : Word
  g_heap_size : Word
  out : List Byte

/-- `on_illegal`. -/
def onIllegal : TrapFn MainHost := fun s =>
  ({ s with host := { s.host with g_halt := true, g_exit := 1#32 } }, true)

/-- `on_oob`: the first fault halts. -/
def onOob : MemFn MainHost := fun s _ _ _ =>
  if s.host.g_faulted then (s, 0#32)
  else ({ s with host := { s.host with g_faulted := true, g_halt := true, g_exit := 1#32 } }, 0#32)

/-- The host and the result of a syscall of `on_ecall`. -/
def syscall (s : State MainHost) : MainHost × Word :=
  let a0 := s.x 10#5
  let a1 := s.x 11#5
  let a2 := s.x 12#5
  match (s.x 17#5).toNat with
  | 64 => ({ s.host with out := s.host.out ++
      (List.range a2.toNat).map fun i => purvhostGuestByte s (a1 + BitVec.ofNat 32 i) }, a2)
  | 93 => ({ s.host with g_exit := a0, g_halt := true }, 0#32)
  | 94 => ({ s.host with g_exit := a0, g_halt := true }, 0#32)
  | 214 =>
    let brk := if a0 ≥ s.host.g_brk ∧ a0 < RISCV_HALF + s.host.g_heap_size then a0
      else s.host.g_brk
    ({ s.host with g_brk := brk }, brk)
  | _ => (s.host, -38#32)

/-- `on_ecall`. -/
def onEcall : TrapFn MainHost := fun s =>
  if s.host.g_user_mode = false then (s, false)
  else
    let (host, ret) := syscall s
    (({ s with host := host } : State MainHost).setX 10#5 ret, host.g_halt)

/-- `on_ebreak`. -/
def onEbreak : TrapFn MainHost := fun s => (s, true)

/-- The function pointers that `main` sets. -/
def mainHooks : Hooks MainHost := ⟨some onEcall, some onEbreak, some onIllegal, some onOob⟩

/-- The action is an `ebreak`. -/
def Action.isEbreak : Action → Bool
  | .ebreak => true
  | .system rd rs1 f3 imm => f3 = 0#3 ∧ rd = 0#5 ∧ rs1 = 0#5 ∧ imm = 1#32
  | _ => false

/-- The instruction at the pc can be fetched. -/
def CanFetch {H : Type} (s : State H) : Prop :=
  Fetchable (s.mem s.readonly.ptr) (s.readonly.ptr == 0) s.readonly.len s.pc

instance {H : Type} (s : State H) : Decidable (CanFetch s) :=
  inferInstanceAs (Decidable (Fetchable _ _ _ _))

/-- The next step completes no instruction, and no handler of it halts. -/
def Silent {H : Type} (s : State H) : Prop :=
  ¬ CanFetch s ∨ Action.isEbreak ((fetch (s.mem s.readonly.ptr) s.pc).decode s.x)

instance {H : Type} (s : State H) : Decidable (Silent s) := inferInstanceAs (Decidable (_ ∨ _))

/-! ## One step -/

/-- The step of `gdb_run` completes its instruction. -/
def Completes {H : Type} (h : Hooks H) (r : Run H) : Prop := (riscvEmulatorLoop h r 1).stop = .budget

theorem execute_ebreak (r : Run MainHost) (pc width inst : Word) {a : Action}
    (ha : Action.isEbreak a) :
    (execute mainHooks r pc width inst a).2 = .out ∧
      (execute mainHooks r pc width inst a).1.s = { r.s with pc := pc, inst := inst } := by
  cases a with
  | ebreak => exact ⟨rfl, rfl⟩
  | system rd rs1 f3 imm =>
    simp only [Action.isEbreak, decide_eq_true_eq] at ha
    obtain ⟨rfl, rfl, rfl, rfl⟩ := ha
    exact ⟨rfl, rfl⟩
  | _ => cases ha

/-- A trap that stops halts, but for `ebreak`. -/
theorem raise_halts (r : Run MainHost) (pc inst : Word) {t : Trap} (ht : t ≠ .ebreak)
    (hout : (r.raise mainHooks pc inst t).2 = .out) :
    (r.raise mainHooks pc inst t).1.s.host.g_halt = true := by
  cases t with
  | ebreak => exact absurd rfl ht
  | illegal => rfl
  | ecall =>
    unfold Run.raise Run.trap Hooks.handler mainHooks at *
    simp only [onEcall] at *
    by_cases hu : (r.fault pc inst).s.host.g_user_mode = false
    · simp [hu] at hout
    · simp only [if_neg hu] at hout ⊢
      by_cases hh : (syscall (r.fault pc inst).s).1.g_halt
      · exact hh
      · simp [hh] at hout

/-- **Every stop but the silent ones halts**: one case per action. -/
theorem execute_halts (r : Run MainHost) (pc width inst : Word) {a : Action}
    (ha : ¬ Action.isEbreak a) (hout : (execute mainHooks r pc width inst a).2 = .out) :
    (execute mainHooks r pc width inst a).1.s.host.g_halt = true := by
  cases a with
  | load rd a imm f3 =>
    unfold execute at *
    simp only at *
    split
    · rename_i hf
      rw [if_pos hf] at hout
      exact raise_halts r pc inst (by simp) hout
    · rename_i hf
      rw [if_neg hf] at hout
      cases hout
  | store a b imm f3 =>
    unfold execute at *
    simp only at *
    split
    · rename_i hf
      rw [if_pos hf] at hout
      exact raise_halts r pc inst (by simp) hout
    · rename_i hf
      rw [if_neg hf] at hout
      cases hout
  | branch a b imm f3 =>
    unfold execute at *
    simp only at *
    cases hb : branchTaken a b f3 with
    | none =>
      rw [hb] at hout
      exact raise_halts r pc inst (by simp) hout
    | some taken =>
      rw [hb] at hout
      cases taken <;> cases hout
  | system rd rs1 f3 imm =>
    unfold execute at *
    simp only at *
    by_cases h0 : f3 = 0#3 ∧ rd = 0#5 ∧ rs1 = 0#5 ∧ imm = 0#32
    · rw [if_pos h0] at hout ⊢
      exact raise_halts r pc inst (by simp) hout
    · rw [if_neg h0] at hout ⊢
      have h1 : ¬ (f3 = 0#3 ∧ rd = 0#5 ∧ rs1 = 0#5 ∧ imm = 1#32) := by
        simpa [Action.isEbreak] using ha
      rw [if_neg h1] at hout ⊢
      exact raise_halts r pc inst (by simp) hout
  | illegal => exact raise_halts r pc inst (by simp) hout
  | ebreak => exact absurd rfl ha
  | _ => cases hout

/-- A silent step stops, and leaves all but `inst` as it was. -/
theorem step_silent {r : Run MainHost} (hs : Silent r.s) :
    ¬ Completes mainHooks r ∧ ∃ inst, (stepOne mainHooks r).s = { r.s with inst := inst } := by
  unfold Completes stepOne
  by_cases hf : CanFetch r.s
  · rw [riscvEmulatorLoop_one mainHooks r hf]
    have hbreak := hs.resolve_left (fun hn => hn hf)
    obtain ⟨hout, hst⟩ := execute_ebreak r r.s.pc
      (fetch (r.s.mem r.s.readonly.ptr) r.s.pc).width
      (fetch (r.s.mem r.s.readonly.ptr) r.s.pc).inst hbreak
    unfold oneInsn
    generalize execute mainHooks r r.s.pc (fetch (r.s.mem r.s.readonly.ptr) r.s.pc).width
      (fetch (r.s.mem r.s.readonly.ptr) r.s.pc).inst
      ((fetch (r.s.mem r.s.readonly.ptr) r.s.pc).decode r.s.x) = o at hout hst
    obtain ⟨r', n⟩ := o
    simp only at hout hst
    rw [hout]
    refine ⟨by simp [landed], ?_⟩
    simp only [landed, Run.setPc, hst]
    exact ⟨_, rfl⟩
  · have hn : ¬ Fetchable (r.s.mem r.s.readonly.ptr) (r.s.readonly.ptr == 0) r.s.readonly.len
        r.s.pc := hf
    rw [riscvEmulatorLoop_eq, stepwise, if_neg hn]
    exact ⟨by simp, r.s.inst, rfl⟩

/-- A step that is not silent completes its instruction or halts. -/
theorem step_halts {r : Run MainHost} (hs : ¬ Silent r.s) (hc : ¬ Completes mainHooks r) :
    (stepOne mainHooks r).s.host.g_halt = true := by
  unfold Completes at hc
  unfold stepOne
  unfold Silent at hs
  rw [not_or, not_not] at hs
  obtain ⟨hf, hbreak⟩ := hs
  rw [riscvEmulatorLoop_one mainHooks r hf] at hc ⊢
  have hhalt := execute_halts r r.s.pc (fetch (r.s.mem r.s.readonly.ptr) r.s.pc).width
    (fetch (r.s.mem r.s.readonly.ptr) r.s.pc).inst hbreak
  unfold oneInsn at hc ⊢
  generalize execute mainHooks r r.s.pc (fetch (r.s.mem r.s.readonly.ptr) r.s.pc).width
    (fetch (r.s.mem r.s.readonly.ptr) r.s.pc).inst
    ((fetch (r.s.mem r.s.readonly.ptr) r.s.pc).decode r.s.x) = o at hc hhalt ⊢
  obtain ⟨r', n⟩ := o
  cases n with
  | done => simp [landed] at hc
  | jump t => simp [landed] at hc
  | out => exact hhalt rfl

/-! ## A continue -/

/-- `*halted` of `main.c`. -/
def mainHalted (m : MainHost) : Bool := m.g_halt

/-- The poll at `tick` reads an interrupt. -/
def Interrupted (interrupt : Nat → Bool) (tick : Nat) : Prop := tick % 1024 = 0 ∧ interrupt tick

/-- **One iteration** reports a stop exactly when a silent one is at a breakpoint or gdb
interrupts. -/
theorem iteration_reports (interrupt : Nat → Bool) (tick : Nat) (g : Stub) (r : Run MainHost) :
    (outcome mainHalted interrupt true tick (stepRecord mainHooks g r).1
        (stepRecord mainHooks g r).2.s ≠ none ∨ Completes mainHooks r) ↔
      (Silent r.s → r.s.host.g_halt = true ∨ bpHit g r.s.pc ∨ Interrupted interrupt tick) := by
  rw [Ne, outcome_none, stepRecord_bp, stepRecord_run]
  by_cases hs : Silent r.s
  · obtain ⟨hc, inst, hst⟩ := step_silent hs
    rw [hst]
    simp only [hs, hc, or_false, true_imp_iff]
    unfold mainHalted Interrupted
    cases r.s.host.g_halt <;> cases bpHit g r.s.pc <;> simp
  · refine iff_of_true ?_ fun h => absurd h hs
    by_cases hc : Completes mainHooks r
    · exact .inr hc
    · refine .inl fun h => ?_
      rw [mainHalted, step_halts hs hc] at h
      cases h.1

/-- Iteration `k` of a continue is reached: the ones before do not return. -/
def Reached (interrupt : Nat → Bool) (g : Stub) (r : Run MainHost) (k : Nat) : Prop :=
  ∀ j < k, outcome mainHalted interrupt true (j + 1) (steps mainHooks (j + 1) g r).1
    (steps mainHooks (j + 1) g r).2.s = none

/-- Every iteration that is reached returns to gdb, or has completed an instruction. -/
def Reports (interrupt : Nat → Bool) (g : Stub) (r : Run MainHost) : Prop :=
  ∀ k, Reached interrupt g r k →
    outcome mainHalted interrupt true (k + 1) (steps mainHooks (k + 1) g r).1
        (steps mainHooks (k + 1) g r).2.s ≠ none ∨
      Completes mainHooks (steps mainHooks k g r).2

theorem steps_last {H : Type} (h : Hooks H) (k : Nat) (g : Stub) (r : Run H) :
    steps h (k + 1) g r = stepRecord h (steps h k g r).1 (steps h k g r).2 := by
  induction k generalizing g r with
  | zero => rfl
  | succ k ih =>
    unfold steps
    exact ih _ _

/-- **A continue reports every engine stop** exactly when each pc outside the code and each `ebreak`
that it comes to is a breakpoint, or gdb's interrupt is read after that step. -/
theorem continue_reports (interrupt : Nat → Bool) (g : Stub) (r : Run MainHost) :
    Reports interrupt g r ↔
      ∀ k, Reached interrupt g r k → Silent (steps mainHooks k g r).2.s →
        (steps mainHooks k g r).2.s.host.g_halt = true ∨
          bpHit g (steps mainHooks k g r).2.s.pc ∨ Interrupted interrupt (k + 1) := by
  apply forall_congr'
  intro k
  apply imp_congr_right
  intro _
  have hit := iteration_reports interrupt (k + 1) (steps mainHooks k g r).1
    (steps mainHooks k g r).2
  rw [steps_bp] at hit
  rw [steps_last]
  exact hit

/-- Without breakpoint and interrupt a silent stop is stepped again for ever. -/
theorem silent_hangs {interrupt : Nat → Bool} (hint : ∀ t, interrupt t = false) (fuel : Nat)
    {tick : Nat} {g : Stub} {r : Run MainHost} (hs : Silent r.s) (hh : r.s.host.g_halt = false)
    (hb : bpHit g r.s.pc = false) :
    gdbRun mainHooks mainHalted interrupt true fuel tick g r = none := by
  induction fuel generalizing tick g r with
  | zero => rfl
  | succ fuel ih =>
    obtain ⟨_, inst, hst⟩ := step_silent hs
    have hnone : outcome mainHalted interrupt true (tick + 1) (stepRecord mainHooks g r).1
        (stepRecord mainHooks g r).2.s = none := by
      rw [outcome_none, stepRecord_bp, stepRecord_run, hst]
      exact ⟨hh, hb, fun hi => by rw [hint] at hi; cases hi.2⟩
    unfold gdbRun
    simp only [hnone]
    apply ih
    · rw [stepRecord_run, hst]
      exact hs
    · rw [stepRecord_run, hst]
      exact hh
    · rw [stepRecord_bp, stepRecord_run, hst]
      exact hb

/-- A program of one `ebreak`. -/
def ebreakRun : Run MainHost where
  s :=
    { pc := 0#32, inst := 0#32, x := fun _ => 0#32
      readonly := ⟨1, 4#32, 0#32⟩, writable := ⟨2, 0#32, RISCV_HALF⟩
      mem := fun b o => if b = 1 then [0x73#8, 0#8, 0x10#8, 0#8].getD o 0#8 else 0#8
      host := ⟨false, 1#32, false, false, 0#32, 0#32, []⟩ }
  log := []

/-- A continue from the `ebreak` never returns. -/
theorem continue_hangs :
    ¬ Reports (fun _ => false) freshStub ebreakRun ∧
      ∀ fuel, gdbRun mainHooks mainHalted (fun _ => false) true fuel 0 freshStub ebreakRun =
        none := by
  have hsilent : Silent ebreakRun.s := by decide
  refine ⟨?_, fun fuel => silent_hangs (fun _ => rfl) fuel hsilent rfl rfl⟩
  intro h
  have h0 := (iteration_reports (fun _ => false) 1 freshStub ebreakRun).mp
    (h 0 fun j hj => absurd hj (Nat.not_lt_zero j)) hsilent
  simp [ebreakRun, freshStub, bpHit, Interrupted] at h0

end Purv.Gdb
