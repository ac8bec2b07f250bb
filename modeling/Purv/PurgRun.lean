import Purv.PurgRefine
import Purv.IsaRefine
import Purv.Batch

/-!
# Runs of the generated engine

* `Homed` — guest address 0 reads the code, and the writable region lies above it;
* `Reserved` — the encodings that the two engines do not read alike;
* `fetch_half`, `fetch_word` — the two loads of the engine fetch what the interpreter fetches;
* `riscvEmulatorLoop_follows` — one call is one iteration of the interpreter;
* `riscvEmulatorLoop_agrees` — as many calls as the interpreter counts instructions end beside it.
-/

namespace Purv.Purg

open Bits Steps Isa

variable {H : Type}

/-- The encodings that the two engines do not read alike. -/
def Reserved : Insn → Prop
  | .half c => ReservedHalf c
  | .word w => ReservedWord w

/-- Guest address 0 reads the code, and the writable region lies above it. -/
structure Homed (code : Buf) (len : Word) (s : Purv.State H) : Prop where
  readonly : s.readonly = ⟨code, len, 0#32⟩
  low : len.toNat ≤ s.writable.base.toNat
  high : s.writable.base.toNat + s.writable.len.toNat ≤ 2 ^ 32

/-- The trap handlers leave the regions where they are. -/
def KeepsRegions (h : Purv.Hooks H) : Prop :=
  ∀ t f, (h.handler t).1 = some f → ∀ s,
    State.readonly (f s).1 = s.readonly ∧ State.writable (f s).1 = s.writable

/-! ## Fetch -/

section
variable {h : Purv.Hooks H} {s : State (Purv.State H)} {code : Buf} {len : Word}

/-- The code window translates to itself. -/
theorem Homed.xlate {m : Purv.State H} (hm : Homed code len m) {a : Word}
    (ha : a.toNat + 2 ≤ len.toNat) : memXlate m a 2#32 false = some (code, a.toNat) := by
  have hlow := hm.low
  have hhigh := hm.high
  have hlen := m.writable.len.isLt
  have hmiss : ¬ Maps m.writable a 2 := by
    unfold Maps
    rw [BitVec.toNat_sub]
    omega
  have hhit : Maps m.readonly a 2 := by
    unfold Maps
    rw [hm.readonly, BitVec.sub_zero]
    exact ha
  have hx := memXlate_eq m a 2 false (by decide) (by decide)
  rw [if_neg hmiss, if_neg (by decide), if_pos hhit] at hx
  rw [show (2#32 : Word) = BitVec.ofNat 32 2 from rfl, hx, hm.readonly, BitVec.sub_zero]

/-- A load of two bytes of the code. -/
theorem load_half (hs : Homed code len s.host) {a : Word} (ha : a.toNat + 2 ≤ len.toNat) :
    s.load (machine h) a 2 = (s, (fetchHalf (s.host.mem code) a).setWidth 32) := by
  have hnext : (a + 1#32).toNat = a.toNat + 1 := by
    rw [BitVec.toNat_add, Nat.mod_eq_of_lt]
    · rfl
    · have := len.isLt
      show a.toNat + 1 < 2 ^ 32
      omega
  unfold State.load
  simp only [machine]
  rw [hs.xlate ha]
  simp only
  refine congrArg (Prod.mk s) ?_
  show loadValue s.host (code, a.toNat) 5#3 &&& 0xffff#32 = _
  unfold fetchHalf
  rw [hnext]
  show ((s.host.mem code a.toNat).setWidth 32 |||
    (s.host.mem code (a.toNat + 1)).setWidth 32 <<< 8) &&& 0xffff#32 = _
  generalize s.host.mem code a.toNat = b
  generalize s.host.mem code (a.toNat + 1) = b'
  ext i hi
  interval_cases i <;> simp

theorem quadrant_low (v : Half) : (v.setWidth 32 : Word).extractLsb' 0 2 = v.extractLsb' 0 2 := by
  ext i hi
  simp [show i < 32 by omega]

theorem Beside.moved {r : Purv.State H} (hb : Beside s r) (pc next inst : Word) :
    Beside { s with programcounter := pc, programcounternext := next, instruction := inst } r :=
  congrArg (fun g => dress g pc inst) hb

theorem fetchLow_eq (hs : Homed code len s.host)
    (ha : s.programcounternext.toNat + 2 ≤ len.toNat) :
    s.fetchLow (machine h) =
      { s with
        programcounter := s.programcounternext
        programcounternext := s.programcounternext + 2#32
        instruction := (fetchHalf (s.host.mem code) s.programcounternext).setWidth 32 } := by
  unfold State.fetchLow
  simp only
  rw [load_half (s := { s with programcounter := s.programcounternext }) hs ha]

theorem fetchHigh_eq (hs : Homed code len s.host)
    (ha : s.programcounternext.toNat + 2 ≤ len.toNat) :
    s.fetchHigh (machine h) =
      { s with
        programcounternext := s.programcounternext + 2#32
        instruction := s.instruction |||
          (fetchHalf (s.host.mem code) s.programcounternext).setWidth 32 <<< 16 } := by
  unfold State.fetchHigh
  rw [load_half hs ha]

section
variable {r : Run H} (hb : Beside s r.s) (hs : Homed code len r.s)
include hb hs

theorem Homed.beside : Homed code len s.host :=
  ⟨hb.readonly.trans hs.readonly, by rw [hb.writable]; exact hs.low,
    by rw [hb.writable]; exact hs.high⟩

variable (hcalm : s.illegalinstruction = false)
include hcalm

/-- What the engine fetches where the interpreter fetches 16 bits. -/
theorem fetch_half {null : Bool} {c : Half}
    (hf : Fetchable (r.s.mem code) null len s.programcounternext)
    (hi : fetch (r.s.mem code) s.programcounternext = .half c) :
    (s.fetchLow (machine h)).instruction.extractLsb' 0 2 ≠ OPCODE16_QUADRANT_INVALID ∧
      Ready (s.fetchLow (machine h)) r s.programcounternext 2#32 (c.setWidth 32) := by
  rw [fetchLow_eq (hs.beside hb) hf.2.1, hb.mem]
  unfold fetch at hi
  simp only at hi
  split at hi
  · cases hi
  · rename_i hlow
    cases hi
    exact ⟨fun hc => hlow ((quadrant_low _).symm.trans hc), hb.moved _ _ _, hcalm, rfl, rfl, rfl⟩

/-- What the engine fetches where the interpreter fetches 32 bits. -/
theorem fetch_word {null : Bool} {w : Word}
    (hf : Fetchable (r.s.mem code) null len s.programcounternext)
    (hi : fetch (r.s.mem code) s.programcounternext = .word w) :
    (s.fetchLow (machine h)).instruction.extractLsb' 0 2 = OPCODE16_QUADRANT_INVALID ∧
      Ready ((s.fetchLow (machine h)).fetchHigh (machine h)) r s.programcounternext 4#32 w := by
  obtain ⟨-, htwo, hfour⟩ := hf
  have hhome := hs.beside hb
  rw [fetchLow_eq hhome htwo, hb.mem]
  unfold fetch at hi
  simp only at hi
  split at hi
  · rename_i hlow
    cases hi
    have hnext : (s.programcounternext + 2#32).toNat + 2 ≤ len.toNat := by
      have hfit := hfour hlow
      have hlt := len.isLt
      rw [BitVec.toNat_add, Nat.mod_eq_of_lt]
      · exact hfit
      · show s.programcounternext.toNat + 2 < 2 ^ 32
        omega
    refine ⟨(quadrant_low _).trans hlow, ?_⟩
    rw [fetchHigh_eq (s := { s with
      programcounter := s.programcounternext
      programcounternext := s.programcounternext + 2#32
      instruction := (fetchHalf (r.s.mem code) s.programcounternext).setWidth 32 }) hhome hnext,
      hb.mem]
    exact ⟨hb.moved _ _ _, hcalm, rfl, BitVec.add_assoc _ _ _, rfl⟩
  · cases hi

omit hb hs hcalm in
theorem loop_half {k : Hooks (Purv.State H)}
    (hlow : (s.fetchLow k).instruction.extractLsb' 0 2 ≠ OPCODE16_QUADRANT_INVALID) :
    riscvEmulatorLoop k s = (executeCompressed k (s.fetchLow k)).map (trap k) := by
  unfold riscvEmulatorLoop
  simp only
  rw [if_neg hlow]

omit hb hs hcalm in
theorem loop_word {k : Hooks (Purv.State H)}
    (hlow : (s.fetchLow k).instruction.extractLsb' 0 2 = OPCODE16_QUADRANT_INVALID) :
    riscvEmulatorLoop k s = some (trap k (execute k ((s.fetchLow k).fetchHigh k))) := by
  unfold riscvEmulatorLoop
  simp only
  rw [if_pos hlow]
  rfl

/-- **One call is one iteration of the interpreter.** -/
theorem riscvEmulatorLoop_follows (hd : Purva.Hooks.IsDevice h) {null : Bool}
    (hf : Fetchable (r.s.mem code) null len s.programcounternext)
    (hq : ¬ Reserved (fetch (r.s.mem code) s.programcounternext)) :
    ∃ s', riscvEmulatorLoop (machine h) s = some s' ∧
      Follows s.programcounternext (fetch (r.s.mem code) s.programcounternext).width
        (oneInsn h r s.programcounternext (fetch (r.s.mem code) s.programcounternext)) s' := by
  cases hi : fetch (r.s.mem code) s.programcounternext with
  | half c =>
    obtain ⟨hlow, hready⟩ := fetch_half (h := h) hb hs hcalm hf hi
    rw [hi] at hq
    obtain ⟨s', hs', hfollows⟩ := executeCompressed_follows hd hready hq
    refine ⟨trap (machine h) s', ?_, hfollows⟩
    rw [loop_half hlow, hs']
    rfl
  | word w =>
    obtain ⟨hlow, hready⟩ := fetch_word (h := h) hb hs hcalm hf hi
    rw [hi] at hq
    exact ⟨_, loop_word hlow, execute_follows hd hready hq⟩

end

end

/-! ## Runs -/

section
variable {h : Purv.Hooks H}

theorem raise_regions (hk : KeepsRegions h) (r : Run H) (pc inst : Word) (t : Trap) :
    (r.raise h pc inst t).1.s.readonly = r.s.readonly ∧
      (r.raise h pc inst t).1.s.writable = r.s.writable := by
  unfold Run.raise Run.trap
  simp only
  cases hh : h.handler t with
  | mk f stop =>
    cases f with
    | none => exact ⟨rfl, rfl⟩
    | some f => exact hk t f (by rw [hh]) (r.fault pc inst).s

theorem callback_regions (hd : Purva.Hooks.IsDevice h) (r : Run H) (op : MemOp) (a v : Word) :
    (r.callback h op a v).1.s.readonly = r.s.readonly ∧
      (r.callback h op a v).1.s.writable = r.s.writable := by
  obtain ⟨-, -, hr⟩ := callback_beside hd (m := r.s) rfl rfl r.log op a v
  rw [show (r.callback h op a v).1.s = _ from hr]
  exact ⟨rfl, rfl⟩

variable (hd : Purva.Hooks.IsDevice h) (hk : KeepsRegions h)
include hd hk

theorem execute_regions (r : Run H) (pc width inst : Word) (a : Action) :
    (Purv.execute h r pc width inst a).1.s.readonly = r.s.readonly ∧
      (Purv.execute h r pc width inst a).1.s.writable = r.s.writable := by
  have hwr : ∀ (r : Run H) (i : Reg) (v : Word),
      (r.wr i v).s.readonly = r.s.readonly ∧ (r.wr i v).s.writable = r.s.writable :=
    fun r i v => ⟨wr_readonly r.s i v, wr_writable r.s i v⟩
  cases a with
  | alu rd a b f3 f7 => exact hwr r _ _
  | mul rd a b f3 => exact hwr r _ _
  | load rd a imm f3 =>
    simp only [Purv.execute]
    split
    · exact raise_regions hk r pc inst .illegal
    · unfold execLoad
      simp only
      split
      · exact ⟨rfl, rfl⟩
      · split
        · exact hwr r _ _
        · obtain ⟨hro, hw⟩ := callback_regions hd r .load (a + imm) 0#32
          obtain ⟨hro', hw'⟩ := hwr (r.callback h .load (a + imm) 0#32).1 rd
            (narrow (r.callback h .load (a + imm) 0#32).2 (1#32 <<< (f3.toNat % 4)) f3)
          exact ⟨hro'.trans hro, hw'.trans hw⟩
  | store a b imm f3 =>
    simp only [Purv.execute]
    split
    · exact raise_regions hk r pc inst .illegal
    · unfold execStore
      split
      · rename_i p _
        obtain ⟨-, hr⟩ := storeValue_mem r.s r.s rfl p b f3
        show (storeValue r.s p b f3).readonly = _ ∧ (storeValue r.s p b f3).writable = _
        rw [hr]
        exact ⟨rfl, rfl⟩
      · exact callback_regions hd r .store (a + imm) b
  | branch a b imm f3 =>
    simp only [Purv.execute]
    split
    · exact raise_regions hk r pc inst .illegal
    · exact ⟨rfl, rfl⟩
    · exact ⟨rfl, rfl⟩
  | jal rd imm => exact hwr r _ _
  | jalr rd a imm => exact hwr r _ _
  | lui rd imm => exact hwr r _ _
  | auipc rd imm => exact hwr r _ _
  | system rd rs1 f3 imm =>
    simp only [Purv.execute]
    split
    · exact raise_regions hk r pc inst .ecall
    · split
      · exact raise_regions hk r pc inst .ebreak
      · exact raise_regions hk r pc inst .illegal
  | ebreak => exact raise_regions hk r pc inst .ebreak
  | illegal => exact raise_regions hk r pc inst .illegal
  | done => exact ⟨rfl, rfl⟩

theorem Homed.step {code : Buf} {len : Word} {r : Run H} (hs : Homed code len r.s) (pc : Word)
    (i : Insn) : Homed code len (oneInsn h r pc i).1.s := by
  obtain ⟨hro, hw⟩ := execute_regions hd hk r pc i.width i.inst (i.decode r.s.x)
  exact ⟨hro.trans hs.readonly, by rw [oneInsn, hw]; exact hs.low,
    by rw [oneInsn, hw]; exact hs.high⟩

variable {code : Buf} {len : Word}

/-- The per-instruction-checked loop with `n` instructions left, and as many calls. -/
theorem stepwise_agrees (n : Nat) {s : State (Purv.State H)} {r : Run H} {pc : Word}
    (hb : Beside s r.s) (hcalm : s.illegalinstruction = false) (hpc : s.programcounternext = pc)
    (hs : Homed code len r.s)
    (hq : Every (Purv.next h code len) (fun x => Fetchable (x.1.s.mem code) (code == 0) len x.2 →
      ¬ Reserved (fetch (x.1.s.mem code) x.2)) n (r, pc)) (k : Nat) :
    ∃ m s', (stepwise h code len n r pc k).k = k + m ∧
      iter (riscvEmulatorLoop (machine h)) m s = some s' ∧
      Beside s' (stepwise h code len n r pc k).r.s ∧ s'.illegalinstruction = false ∧
      ((stepwise h code len n r pc k).stop ≠ .trap →
        s'.programcounternext = (stepwise h code len n r pc k).r.s.pc) := by
  induction n generalizing s r pc k with
  | zero => exact ⟨0, s, rfl, rfl, hb, hcalm, fun _ => hpc⟩
  | succ n ih =>
    rw [stepwise]
    by_cases hf : Fetchable (r.s.mem code) (code == 0) len pc
    · rw [if_pos hf]
      simp only
      have hone := hq.1 hf
      subst hpc
      obtain ⟨s', hs', hfollows⟩ := riscvEmulatorLoop_follows hb hs hcalm hd hf hone
      have hhome := hs.step hd hk s.programcounternext (fetch (r.s.mem code) s.programcounternext)
      have hnext := hq.2
      simp only [Purv.next, if_pos hf] at hnext
      cases ho : oneInsn h r s.programcounternext (fetch (r.s.mem code) s.programcounternext) with
      | mk r' o =>
        rw [ho] at hfollows hhome hnext
        cases o with
        | done =>
          obtain ⟨m, s'', hcount, hrun, hrest⟩ := ih hfollows.beside hfollows.calm hfollows.next
            hhome (hnext _ rfl) (k + 1)
          refine ⟨m + 1, s'', ?_, (iter_succ hs').trans hrun, hrest⟩
          rw [hcount]
          omega
        | jump t =>
          obtain ⟨m, s'', hcount, hrun, hrest⟩ := ih hfollows.beside hfollows.calm hfollows.next
            hhome (hnext _ rfl) (k + 1)
          refine ⟨m + 1, s'', ?_, (iter_succ hs').trans hrun, hrest⟩
          rw [hcount]
          omega
        | out =>
          refine ⟨1, s', rfl, iter_one hs', hfollows.beside, hfollows.calm, fun hc => ?_⟩
          exact absurd rfl hc
    · rw [if_neg hf]
      exact ⟨0, s, rfl, rfl, hb, hcalm, fun _ => hpc⟩

/-- **Calling the generated engine once for each instruction that the interpreter counts leaves it
beside the interpreter**: the same registers, memory and host, and unless a handler stopped the
interpreter the same pc.  This is so for every budget, as long as no encoding on the way is one of
those that the engines do not read alike. -/
theorem riscvEmulatorLoop_agrees {s : State (Purv.State H)} {r : Run H} (hb : Beside s r.s)
    (hcalm : s.illegalinstruction = false) (hpc : s.programcounternext = r.s.pc)
    (hs : Homed code len r.s) (max : Nat)
    (hq : Every (Purv.next h code len) (fun x => Fetchable (x.1.s.mem code) (code == 0) len x.2 →
      ¬ Reserved (fetch (x.1.s.mem code) x.2)) max (r, r.s.pc)) :
    ∃ s', iter (riscvEmulatorLoop (machine h)) (Purv.riscvEmulatorLoop h r max).k s = some s' ∧
      Beside s' (Purv.riscvEmulatorLoop h r max).r.s ∧ s'.illegalinstruction = false ∧
      ((Purv.riscvEmulatorLoop h r max).stop ≠ .trap →
        s'.programcounternext = (Purv.riscvEmulatorLoop h r max).r.s.pc) := by
  rw [riscvEmulatorLoop_eq, hs.readonly]
  obtain ⟨m, s', hcount, hrun, hrest⟩ := stepwise_agrees hd hk max hb hcalm hpc hs hq 0
  rw [Nat.zero_add] at hcount
  rw [hcount]
  exact ⟨s', hrun, hrest⟩

end

/-! ## A program on both engines -/

/-- `FENCE; C.ADDI x1, 5; EBREAK`. -/
def mixedBytes : List Byte := [0x0f, 0x00, 0x00, 0x00, 0x95, 0x00, 0x73, 0x00, 0x10, 0x00]

def mixedHooks : Purv.Hooks Unit := { Purv.Hooks.null with callback := some fun s _ a _ => (s, a) }

def mixedRun : Run Unit := ⟨State.boot mixedBytes 64, []⟩

def mixedState : State (Purv.State Unit) :=
  riscvEmulatorSetProgramCounter (riscvEmulatorCreate (State.boot mixedBytes 64) 0#32) 0#32

theorem mixed_beside : Beside mixedState mixedRun.s := by
  have hx : mixedState.x = fun _ => 0#32 := by
    funext i
    simp only [mixedState, riscvEmulatorSetProgramCounter, riscvEmulatorCreate, riscvEmulatorInit,
      State.setX]
    split
    · rfl
    · split <;> rfl
  unfold Beside State.guest
  rw [hx]
  rfl

theorem mixed_next :
    Purv.next mixedHooks 1 10#32 (mixedRun, 0#32) = some (mixedRun, 4#32) ∧
      Purv.next mixedHooks 1 10#32 (mixedRun, 4#32) = some (mixedRun.wr 1#5 5#32, 6#32) ∧
      Purv.next mixedHooks 1 10#32 (mixedRun.wr 1#5 5#32, 6#32) = none := by
  unfold Purv.next
  simp only
  rw [if_pos (by decide), if_pos (by decide), if_pos (by decide)]
  exact ⟨rfl, rfl, rfl⟩

/-- An instruction that neither computes nor jumps through a register is never reserved. -/
theorem reservedWord_op {w : Word} (h1 : (w.extractLsb' 0 7).toNat ≠ OPIMM)
    (h2 : (w.extractLsb' 0 7).toNat ≠ OP) (h3 : (w.extractLsb' 0 7).toNat ≠ JALR) :
    ¬ ReservedWord w := by
  rintro (⟨op, -, -⟩ | ⟨op, -, -, -⟩ | ⟨op, -, -, -⟩ | ⟨op, -⟩)
  · exact h1 op
  · exact h1 op
  · exact h2 op
  · exact h3 op

/-- A use of `riscvEmulatorLoop_agrees`. -/
theorem riscvEmulatorLoop_agrees_mixed :
    ∃ s', iter (riscvEmulatorLoop (machine mixedHooks))
        (Purv.riscvEmulatorLoop mixedHooks mixedRun 3).k mixedState = some s' ∧
      s'.x 1#5 = 5#32 := by
  have hnone : ∀ t, (mixedHooks.handler t).1 = none := fun t => by cases t <;> rfl
  obtain ⟨h1, h2, h3⟩ := mixed_next
  have hword : ∀ (r : Run Unit) (w : Word) (pc : Word), fetch (r.s.mem 1) pc = .word w →
      (w.extractLsb' 0 7).toNat ≠ OPIMM → (w.extractLsb' 0 7).toNat ≠ OP →
      (w.extractLsb' 0 7).toNat ≠ JALR → ¬ Reserved (fetch (r.s.mem 1) pc) := by
    intro r w pc hw h1 h2 h3
    rw [hw]
    exact reservedWord_op h1 h2 h3
  obtain ⟨s', hrun, hb, -, -⟩ := @riscvEmulatorLoop_agrees Unit mixedHooks
    (fun f hf => ⟨⟨fun m u _ a _ => (m, u, a)⟩, by cases hf; rfl⟩)
    (fun t f hf => by rw [hnone] at hf; cases hf) 1 10#32 mixedState mixedRun
    mixed_beside rfl rfl ⟨rfl, by decide, by decide⟩ 3
    ⟨fun _ => hword mixedRun 0x0000000f#32 0#32 rfl (by decide) (by decide) (by decide), by
      intro y hy
      rw [show Purv.next mixedHooks 1 10#32 (mixedRun, mixedRun.s.pc) = _ from h1] at hy
      cases hy
      refine ⟨fun _ => ?_, ?_⟩
      · rintro (⟨sel, -, -⟩ | ⟨sel, -, -⟩ | ⟨sel, -, -⟩ | ⟨sel, -, -⟩) <;>
          exact absurd sel (by decide)
      · intro y hy
        rw [h2] at hy
        cases hy
        refine ⟨fun _ => hword _ 0x00100073#32 6#32 rfl (by decide) (by decide) (by decide), ?_⟩
        intro y hy
        rw [h3] at hy
        cases hy⟩
  exact ⟨s', hrun, by rw [hb.x]; rfl⟩

end Purv.Purg
