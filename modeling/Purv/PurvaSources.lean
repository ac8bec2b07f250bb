import Purv.PurvaFrame
import Purv.PurvaFuel
import Purv.PurvaEnd
import Purv.Decoders

/-!
# Units and their source, in any run

The two engines keep `state->pc` and `state->inst` differently.  A handler that looks at neither
cannot tell them apart, and then a unit does in a run of the transcoded program what its source does
in a run of the interpreter.

* `State.bare` — a state without `pc` and `inst`;
* `Hooks.Blind` — handlers that look at neither;
* `replay_bare` — a run of instructions, in two runs alike;
* `Plain` — the instructions of a direct-control-flow program;
* `Along` — an op goes on as its source does;
* `unit_replays` — every unit of a direct-control-flow program replays its source.
-/

namespace Purv.Purva

open Bits Transcode Steps

variable {H : Type}

/-! ## States without pc and inst -/

/-- The state without its pc and its instruction. -/
def State.bare (s : State H) : State H := { s with pc := 0#32, inst := 0#32 }

/-- The handlers answer without a look at `state->pc` and `state->inst`. -/
def Hooks.Blind (h : Hooks H) : Prop :=
  ∀ t f, (h.handler t).1 = some f → ∀ s s', State.bare s = State.bare s' →
    State.bare (f s).1 = State.bare (f s').1 ∧ (f s).2 = (f s').2

section
variable {s s' : State H} (hs : State.bare s = State.bare s')
include hs

theorem bare_x : s.x = s'.x := congrArg (fun a => a.x) hs

theorem bare_mem : s.mem = s'.mem := congrArg (fun a => a.mem) hs

theorem bare_writable : s.writable = s'.writable := congrArg (fun a => a.writable) hs

theorem bare_readonly : s.readonly = s'.readonly := congrArg (fun a => a.readonly) hs

theorem bare_xlate (a n : Word) (w : Bool) : memXlate s a n w = memXlate s' a n w := by
  unfold memXlate
  rw [bare_writable hs, bare_readonly hs]

theorem wr_bare (i : Reg) (v : Word) : State.bare (s.wr i v) = State.bare (s'.wr i v) := by
  have hcomm : ∀ s : State H, State.bare (s.wr i v) = (State.bare s).wr i v := fun s => by
    unfold State.wr
    split <;> rfl
  rw [hcomm, hcomm, hs]

theorem setByte_bare (p : Ptr) (i : Nat) (v : Byte) :
    State.bare (s.setByte p i v) = State.bare (s'.setByte p i v) := by
  have hcomm : ∀ s : State H, State.bare (s.setByte p i v) = (State.bare s).setByte p i v :=
    fun _ => rfl
  rw [hcomm, hcomm, hs]

end

theorem storeValue_bare {s s' : State H} (hs : State.bare s = State.bare s') (p : Ptr) (b : Word)
    (f3 : BitVec 3) : State.bare (storeValue s p b f3) = State.bare (storeValue s' p b f3) := by
  unfold storeValue
  split
  · exact setByte_bare hs _ _ _
  · exact setByte_bare (setByte_bare hs _ _ _) _ _ _
  · exact setByte_bare (setByte_bare (setByte_bare (setByte_bare hs _ _ _) _ _ _) _ _ _) _ _ _

/-- A callback of a fixed function leaves the state alone. -/
theorem callback_fixed {h : Hooks H} {g : MemOp → Word → Word} (hfix : Hooks.IsFixed h g)
    (r : Run H) (op : MemOp) (a v : Word) :
    (r.callback h op a v).1.s = r.s ∧ (r.callback h op a v).2 = g op a := by
  unfold Run.callback
  rw [hfix]
  exact ⟨rfl, rfl⟩

section
variable {h : Hooks H} (hblind : Hooks.Blind h) {r q : Run H}
  (hrq : State.bare r.s = State.bare q.s)
include hrq

section
include hblind

theorem trap_bare (t : Trap) :
    State.bare (r.trap h t).1.s = State.bare (q.trap h t).1.s ∧
      (r.trap h t).2 = (q.trap h t).2 := by
  unfold Run.trap
  split
  · exact ⟨hrq, rfl⟩
  · rename_i f _ hf
    exact hblind t f (by rw [hf]) r.s q.s hrq

/-- A trap at two places, with two instructions in the state. -/
theorem fault_trap_bare (pc pc' inst inst' : Word) (t : Trap) :
    State.bare ((r.fault pc inst).trap h t).1.s = State.bare ((q.fault pc' inst').trap h t).1.s ∧
      ((r.fault pc inst).trap h t).2 = ((q.fault pc' inst').trap h t).2 :=
  trap_bare hblind (r := r.fault pc inst) (q := q.fault pc' inst') hrq t

theorem raise_bare (pc pc' inst inst' : Word) (t : Trap) :
    State.bare (r.raise h pc inst t).1.s = State.bare (q.raise h pc' inst' t).1.s ∧
      (r.raise h pc inst t).2 = (q.raise h pc' inst' t).2 := by
  obtain ⟨h1, h2⟩ := fault_trap_bare hblind hrq pc pc' inst inst' t
  unfold Run.raise
  simp only
  rw [h2]
  exact ⟨h1, rfl⟩

end

variable {g : MemOp → Word → Word} (hfix : Hooks.IsFixed h g)
include hfix

theorem execLoad_bare (rd : Reg) (a : Word) (f3 : BitVec 3) :
    State.bare (execLoad h r rd a f3).s = State.bare (execLoad h q rd a f3).s := by
  unfold execLoad
  simp only
  split
  · exact hrq
  · rw [bare_xlate hrq]
    split
    · rename_i p _
      have hv : loadValue r.s p f3 = loadValue q.s p f3 := by
        unfold loadValue State.byte
        rw [bare_mem hrq]
      rw [hv]
      exact wr_bare hrq _ _
    · obtain ⟨h1, h2⟩ := callback_fixed hfix r .load a 0#32
      obtain ⟨h1', h2'⟩ := callback_fixed hfix q .load a 0#32
      rw [h2, h2']
      exact wr_bare (by rw [h1, h1', hrq]) _ _

theorem execStore_bare (a b : Word) (f3 : BitVec 3) :
    State.bare (execStore h r a b f3).s = State.bare (execStore h q a b f3).s := by
  unfold execStore
  rw [bare_xlate hrq]
  split
  · exact storeValue_bare hrq _ _ _
  · rw [(callback_fixed hfix r .store a b).1, (callback_fixed hfix q .store a b).1, hrq]

include hblind

/-- **Every action body does the same in two runs that differ by their pc and inst.** -/
theorem execute_bare (pc width inst : Word) (a : Action) :
    State.bare (execute h r pc width inst a).1.s = State.bare (execute h q pc width inst a).1.s ∧
      (execute h r pc width inst a).2 = (execute h q pc width inst a).2 := by
  have hraise := fun t => raise_bare hblind hrq pc pc inst inst t
  cases a <;> simp only [execute]
  case load rd a imm f3 =>
    split
    · exact hraise _
    · exact ⟨execLoad_bare hrq hfix _ _ _, rfl⟩
  case store a b imm f3 =>
    split
    · exact hraise _
    · exact ⟨execStore_bare hrq hfix _ _ _, rfl⟩
  case branch a b imm f3 =>
    split
    · exact hraise _
    · exact ⟨hrq, rfl⟩
    · exact ⟨hrq, rfl⟩
  case system rd rs1 f3 imm =>
    split
    · exact hraise _
    · split
      · exact hraise _
      · exact hraise _
  case ebreak => exact hraise _
  case illegal => exact hraise _
  case done => exact ⟨hrq, trivial⟩
  all_goals exact ⟨wr_bare hrq _ _, trivial⟩

theorem oneInsn_bare (pc : Word) (i : Insn) :
    State.bare (oneInsn h r pc i).1.s = State.bare (oneInsn h q pc i).1.s ∧
      (oneInsn h r pc i).2 = (oneInsn h q pc i).2 := by
  unfold oneInsn
  rw [bare_x hrq]
  exact execute_bare hblind hrq hfix _ _ _ _

end

/-- **A run of instructions does the same in two runs that differ by their pc and inst.** -/
theorem replay_bare {h : Hooks H} (hblind : Hooks.Blind h) {g : MemOp → Word → Word}
    (hfix : Hooks.IsFixed h g) (code : Nat → Byte) (n : Nat) {r q : Run H}
    (hrq : State.bare r.s = State.bare q.s) (pc : Word) :
    State.bare (replay h code n r pc).1.s = State.bare (replay h code n q pc).1.s ∧
      (replay h code n r pc).2 = (replay h code n q pc).2 := by
  induction n generalizing r q pc with
  | zero => exact ⟨hrq, rfl⟩
  | succ n ih =>
    obtain ⟨hs, hn⟩ := oneInsn_bare hblind hrq hfix pc (fetch code pc)
    unfold replay
    generalize oneInsn h r pc (fetch code pc) = o at hs hn
    generalize oneInsn h q pc (fetch code pc) = o' at hs hn
    obtain ⟨r₁, nx⟩ := o
    obtain ⟨q₁, nx'⟩ := o'
    simp only at hs hn
    subst hn
    cases nx with
    | done => exact ih hs _
    | jump t => exact ⟨hs, rfl⟩
    | out => exact ⟨hs, rfl⟩

/-! ## Direct-control-flow programs -/

/-- A 32-bit instruction that both decoders read alike, and that looks at the pc only to jump to a
place that the code itself names. -/
structure Plain (code : Nat → Byte) (off : Word) : Prop where
  low : (wordAt code off).extractLsb' 0 2 = 3#2
  read : ¬ Misread (wordAt code off)
  memop : (decode code off).op ≠ RISCV_OP_MEMOP
  auipc : (decode code off).op ≠ RISCV_OP_AUIPC
  jalr : (decode code off).op ≠ RISCV_OP_JALR
  jal : (decode code off).op = RISCV_OP_JAL → (decode code off).rd = 0#5

/-- A program of such instructions. -/
def DirectFlow (code : Nat → Byte) (len : Word) : Prop :=
  ∀ o : Word, o.toNat % 4 = 0 → o.toNat < len.toNat → Plain code o

/-- An op goes on as its source does. -/
def Along (d : Dec) : Next → Goto → Prop
  | .done, .fall _ => True
  | .done, .trap stop => stop = false
  | .out, .trap stop => stop = true
  | .jump t, .reloc _ => t = d.target
  | _, _ => False

/-- The ops that jump to the address in a register. -/
def Indirect (op : Nat) : Prop :=
  op = RISCV_OP_JALR ∨ op = RISCV_OP_EPILOGUE ∨ op = RISCV_OP_VCALL

instance (op : Nat) : Decidable (Indirect op) := inferInstanceAs (Decidable (_ ∨ _ ∨ _))

theorem dispatch_indirect_op {h : Hooks H} {r : Run H} {p w w2 t : Word}
    (hj : (dispatch h r p w w2).2.2 = .indirect t) : Indirect (TC_OP w) := by
  unfold dispatch at hj
  simp only at hj
  split at hj
  all_goals rename_i hop
  all_goals try (simp only [reduceCtorEq] at hj; done)
  case h_59 =>
    unfold hTrap at hj
    simp only [reduceCtorEq] at hj
  all_goals first
    | (rw [hop]; decide)
    | (unfold hBranch at hj; simp only at hj; split at hj <;> cases hj)
    | (unfold hLoadBz at hj; simp only at hj; split at hj <;> cases hj)

/-- An op that was not fused counts one instruction. -/
theorem dispatch_single {h : Hooks H} {r : Run H} {p w w2 : Word} (hop : TC_OP w ≤ RISCV_OP_NOP) :
    (dispatch h r p w w2).2.1 = 1 := by
  unfold RISCV_OP_NOP at hop
  unfold dispatch
  simp only
  split <;> rename_i hk
  all_goals first
    | rfl
    | (exfalso; rw [hk] at hop; revert hop; decide)

/-- Where a unit jumps to the address in a register, its op says so. -/
theorem evalUnit_indirect {h : Hooks H} {r : Run H} {at_ : Word} {d : Dec} {map : Nat → Word}
    {len t : Word} (hop : d.op < 64) (hj : (evalUnit h r at_ d map len).2.2 = .indirect t) :
    Indirect d.op := by
  by_cases hnop : d.op = RISCV_OP_NOP
  · unfold evalUnit at hj
    rw [emit_nop at_ d map len hnop] at hj
    cases hj
  · obtain ⟨w, rest, hemit, hw⟩ := emit_cons at_ map len hop hnop
    unfold evalUnit at hj
    rw [hemit] at hj
    rw [← hw]
    exact dispatch_indirect_op hj

section
variable {h : Hooks H} {r : Run H} {code : Nat → Byte} {off : Word}

theorem replay_one : replay h code 1 r off = oneInsn h r off (fetch code off) := by
  rw [replay]
  generalize oneInsn h r off (fetch code off) = o
  obtain ⟨q, nx⟩ := o
  cases nx <;> rfl

/-- Only the jumps that link and `AUIPC` look at the pc. -/
theorem next_elsewhere {d : Dec} (hf : Fits d) (hop : d.op ≤ RISCV_OP_NOP)
    (hauipc : d.op ≠ RISCV_OP_AUIPC) (hjalr : d.op ≠ RISCV_OP_JALR)
    (hjal : d.op = RISCV_OP_JAL → d.rd = 0#5) (pc pc' inst : Word) :
    (d.next h r pc inst).1 = (d.next h r pc' inst).1 := by
  have hsame : ∀ {w : Word} {n : Next}, (∀ pc, d.next h r pc inst =
      ((dispatch h r 0#32 w 0#32).1, n)) → (d.next h r pc inst).1 = (d.next h r pc' inst).1 := by
    intro w n hw
    rw [hw pc, hw pc']
  have hcases : (d.op ≤ RISCV_OP_SRA ∨ RISCV_OP_MUL ≤ d.op ∧ d.op ≤ RISCV_OP_REMU) ∨
      (RISCV_OP_ADDI ≤ d.op ∧ d.op ≤ RISCV_OP_SRAI) ∨ (RISCV_OP_LB ≤ d.op ∧ d.op ≤ RISCV_OP_LHU) ∨
      (RISCV_OP_SB ≤ d.op ∧ d.op ≤ RISCV_OP_SW) ∨ (RISCV_OP_BEQ ≤ d.op ∧ d.op ≤ RISCV_OP_BGEU) ∨
      d.op = RISCV_OP_JAL ∨ d.op = RISCV_OP_LUI ∨ d.op = RISCV_OP_NOP := by
    unfold RISCV_OP_NOP RISCV_OP_SRA RISCV_OP_MUL RISCV_OP_REMU RISCV_OP_ADDI RISCV_OP_SRAI
      RISCV_OP_LB RISCV_OP_LHU RISCV_OP_SB RISCV_OP_SW RISCV_OP_BEQ RISCV_OP_BGEU RISCV_OP_JAL
      RISCV_OP_JALR RISCV_OP_LUI RISCV_OP_AUIPC at *
    omega
  rcases hcases with hk | hk | hk | hk | hk | hk | hk | hk
  · exact hsame fun pc => (dispatch_reg h r 0#32 0#32 pc inst d hf hk).1
  · exact hsame fun pc => (dispatch_imm h r 0#32 0#32 pc inst d hf hk).1
  · exact hsame fun pc => (dispatch_load h r 0#32 0#32 pc inst d hf hk).1
  · exact hsame fun pc => (dispatch_store h r 0#32 0#32 pc inst d hf hk).1
  · obtain ⟨t, hn, -⟩ := dispatch_branch h r 0#32 0#32 pc inst d 0#16 hk
    obtain ⟨t', hn', -⟩ := dispatch_branch h r 0#32 0#32 pc' inst d 0#16 hk
    rw [hn, hn']
  · rw [(dispatch_jal d h r 0#32 0#32 pc inst 0#32 hk).1,
      (dispatch_jal d h r 0#32 0#32 pc' inst 0#32 hk).1, hjal hk]
    rfl
  · exact hsame fun pc => (dispatch_lui d h r 0#32 0#32 pc inst hf hk).1
  · obtain ⟨op, rd, rs1, rs2, imm, target, width⟩ := d
    cases hk
    rfl

/-- The instructions before the branches fall through. -/
theorem next_falls {d : Dec} (hop : d.op ≤ RISCV_OP_LHU) (pc inst : Word) :
    (d.next h r pc inst).2 = .done := by
  obtain ⟨op, rd, rs1, rs2, imm, target, width⟩ := d
  unfold RISCV_OP_LHU at hop
  simp only at hop
  interval_cases op <;> rfl

variable (hplain : Plain code off) (at_ : Word) (map : Nat → Word) (len : Word)
include hplain

theorem Plain.one : oneInsn h r off (fetch code off) =
    (decode code off).next h r off (wordAt code off) :=
  next_decode h r hplain.low hplain.read

theorem Plain.width : (fetch code off).width = 4#32 := by
  rw [fetch_wordAt hplain.low]
  rfl

/-- **An instruction that was not fused.** -/
theorem Plain.replays (hblind : Hooks.Blind h) :
    State.bare (evalUnit h r at_ (decode code off) map len).1.s =
        State.bare (replay h code 1 r off).1.s ∧
      Along (decode code off) (replay h code 1 r off).2
        (evalUnit h r at_ (decode code off) map len).2.2 := by
  have hle : (decode code off).op ≤ RISCV_OP_ILLEGAL :=
    (decode_op code off).resolve_right hplain.memop
  rw [replay_one, hplain.one]
  by_cases hop : (decode code off).op ≤ RISCV_OP_NOP
  · obtain ⟨hrun, hgoes⟩ := Decoders.evalUnit_next h r at_ off (wordAt code off) map len
      (decode_fits code off) hop
    have hind : ∀ t, (evalUnit h r at_ (decode code off) map len).2.2 ≠ .indirect t := by
      intro t ht
      rcases evalUnit_indirect (by unfold RISCV_OP_NOP at hop; omega) ht with hk | hk | hk
      · exact hplain.jalr hk
      · rw [hk] at hop
        exact absurd hop (by decide)
      · rw [hk] at hop
        exact absurd hop (by decide)
    rw [hrun, next_elsewhere (decode_fits code off) hop hplain.auipc hplain.jalr hplain.jal
      (at_ <<< 2) off]
    refine ⟨rfl, ?_⟩
    generalize ((decode code off).next h r off (wordAt code off)).2 = nx at hgoes
    generalize (evalUnit h r at_ (decode code off) map len).2.2 = g at hgoes hind
    cases nx with
    | done =>
      cases g with
      | fall n => trivial
      | _ => exact hgoes.elim
    | jump t =>
      cases g with
      | reloc i => exact hgoes.1
      | indirect u => exact absurd rfl (hind u)
      | _ => exact hgoes.elim
    | out => cases g <;> exact hgoes.elim
  · have htrap : RISCV_OP_ECALL ≤ (decode code off).op ∧
        (decode code off).op ≤ RISCV_OP_ILLEGAL := by
      refine ⟨?_, hle⟩
      unfold RISCV_OP_NOP at hop
      unfold RISCV_OP_ECALL
      omega
    obtain ⟨hraise, hdisp⟩ := dispatch_trap (decode code off) h r at_ 0#32 off (wordAt code off)
      htrap
    obtain ⟨hs, hstop⟩ := fault_trap_bare hblind (r := r) (q := r) rfl (at_ <<< 2) off
      (opField (decode code off).op) (wordAt code off) (trapOf (decode code off).op)
    rw [evalUnit_one (emit_trap at_ _ map len htrap), hdisp, hraise]
    refine ⟨hs, ?_⟩
    unfold Run.raise
    simp only
    rw [← hstop]
    generalize ((r.fault (at_ <<< 2) (opField (decode code off).op)).trap h
      (trapOf (decode code off).op)).2 = stop
    cases stop with
    | true => rfl
    | false => rfl

end

/-! ## Units -/

/-- The first instruction of a fused pair is no jump; a vtable call has a `JALR`. -/
theorem tryFusePair_first {code : Nat → Byte} {len off wd : Word} {targets : Targets} {out d : Dec}
    (hf : tryFusePair code len off targets out = some (d, wd)) :
    (off + 12#32 ≤ len ∧ (decode code (off + 8#32)).op = RISCV_OP_JALR) ∨
      (wd = 8#32 ∧ ¬ Indirect d.op ∧ (decode code off).op ≤ RISCV_OP_LHU) := by
  unfold tryFusePair at hf
  simp only at hf
  split at hf
  · cases hf
  split at hf
  · cases hf
  split at hf
  · rename_i hd
    cases hf
    obtain ⟨ha, -, -, o, -, -, rfl⟩ := fuseShadd_some hd
    exact .inr ⟨rfl, show ¬ Indirect RISCV_OP_SHADD by decide, by rw [ha]; decide⟩
  split at hf
  · rename_i hd
    cases hf
    unfold fuseLwx at hd
    split at hd
    · rename_i ha
      cases hd
      exact .inr ⟨rfl, show ¬ Indirect RISCV_OP_LWX by decide, by rw [ha.1]; decide⟩
    · cases hd
  split at hf
  · rename_i hd
    split at hd
    case isFalse => cases hd
    rename_i ha
    split at hf
    · rename_i hv
      unfold isVcall at hv
      simp only [Bool.and_eq_true, decide_eq_true_eq] at hv
      exact .inl ⟨hv.1.1, hv.2.1⟩
    · cases hf
      obtain ⟨-, -, -, hop, -⟩ := fuseLwlw_some hd 0
      exact .inr ⟨rfl, by rw [hop]; decide, by rw [ha.1]; decide⟩
  split at hf
  · rename_i hd
    cases hf
    split at hd
    case isFalse => cases hd
    rename_i ha
    unfold fuseLwsw at hd
    split at hd
    · cases hd
      exact .inr ⟨rfl, show ¬ Indirect RISCV_OP_LWSW by decide, by rw [ha.1]; decide⟩
    · cases hd
  split at hf
  · rename_i hd
    cases hf
    obtain ⟨ha, -, -, -, rfl⟩ := fuseBz_some hd
    rcases ha with ha | ha
    · rw [if_pos ha]
      exact .inr ⟨rfl, show ¬ Indirect RISCV_OP_LW_BZ by decide, by rw [ha]; decide⟩
    · rw [if_neg (by rw [ha]; decide)]
      exact .inr ⟨rfl, show ¬ Indirect RISCV_OP_LBU_BZ by decide, by rw [ha]; decide⟩
  · cases hf

/-- A callback of a fixed function is a device. -/
theorem fixed_device {h : Hooks H} {g : MemOp → Word → Word} (hfix : Hooks.IsFixed h g) :
    Hooks.IsDevice h := by
  intro f hf
  rw [hfix] at hf
  cases hf
  exact ⟨⟨fun mem host op a _ => (mem, host, g op a)⟩, rfl⟩

section
variable {code : Nat → Byte} {len off : Word} (hlen : Sized len) (hmul : off.toNat % 4 = 0)
  (hfit : off.toNat + 4 ≤ len.toNat) (hflow : DirectFlow code len) {targets : Targets}
  {out d : Dec} {wd : Word}
include hlen hmul hfit hflow

/-- The instructions of a unit are plain. -/
theorem slot_plain {n : Nat} (hn : off.toNat + 4 * n < len.toNat) : Plain code (slot off n) := by
  have htop := hlen.top
  have hs := @toNat_slot off n (by omega)
  exact hflow _ (by omega) (by omega)

theorem pair_replays {h : Hooks H} {g : MemOp → Word → Word} (hfix : Hooks.IsFixed h g) {r : Run H}
    (hx0 : r.s.x 0#5 = 0#32) (hf : tryFusePair code len off targets out = some (d, wd))
    (at_ : Word) (map : Nat → Word) :
    State.bare (evalUnit h r at_ d map len).1.s =
        State.bare (replay h code (wd.toNat / 4) r off).1.s ∧
      Along d (replay h code (wd.toNat / 4) r off).2 (evalUnit h r at_ d map len).2.2 ∧
      wd.toNat / 4 = 2 ∧ (oneInsn h r off (fetch code off)).2 = .done ∧
      (replay h code (wd.toNat / 4) r off).2 ≠ .out := by
  have htop := hlen.top
  rcases tryFusePair_first hf with ⟨h12, hjalr⟩ | ⟨hwd, hop, hfirst⟩
  · have h12' : (off + 12#32).toNat = off.toNat + 12 := BitVec.toNat_add_of_lt (by simp; omega)
    rw [BitVec.le_def, h12'] at h12
    exact absurd hjalr (slot_plain hlen hmul hfit hflow (n := 2) (by omega)).jalr
  · obtain ⟨hrun, hlands⟩ := (tryFusePair_replays (fixed_device hfix) hx0 hf at_ map).2
      fun hc => hop (.inr (.inr hc.1))
    rw [link_eq fun hc => hop (.inr (.inr hc))] at hrun
    have hind : ∀ t, (evalUnit h r at_ d map len).2.2 ≠ .indirect t := fun t ht =>
      hop (evalUnit_indirect (tryFusePair_covers hf).1.op_ne.1 ht)
    refine ⟨congrArg State.bare (veil_hide hrun), ?_, by rw [hwd]; rfl, ?_, fun ho => ?_⟩
    · generalize (replay h code (wd.toNat / 4) r off).2 = nx at hlands
      generalize (evalUnit h r at_ d map len).2.2 = g' at hlands hind
      cases nx with
      | done =>
        cases g' with
        | fall n => trivial
        | _ => exact hlands.elim
      | jump t =>
        cases g' with
        | reloc i => exact hlands.1
        | indirect u => exact absurd rfl (hind u)
        | _ => exact hlands.elim
      | out => cases g' <;> exact hlands.elim
    · have hplain := slot_plain hlen hmul hfit hflow (n := 0) (by omega)
      rw [slot_zero] at hplain
      rw [hplain.one]
      exact next_falls hfirst _ _
    · rw [ho] at hlands
      cases hg : (evalUnit h r at_ d map len).2.2 <;> rw [hg] at hlands <;> exact hlands

/-- **There is no epilogue without a `JALR`.** -/
theorem no_epilogue (hf : tryFuseEpilogue code len off targets out = some (d, wd)) : False := by
  obtain ⟨n, hu⟩ := tryFuseEpilogue_unit hlen (by omega) hf
  obtain ⟨N, rmask, o, ho, -, -, -, -, -, hjalr, -, -, -, -, -, -, hwd⟩ := tryFuseEpilogue_some hf
  generalize (epilogueLoads code len off targets 13 off).length = k at ho hwd
  have hw := hu.width
  have hfits := hu.fits
  simp only at hw
  have hslot : slot off (k + 1) = o + 4#32 := by
    rw [ho, ← slot_succ]
    unfold slot
    rw [BitVec.ofNat_mul, BitVec.add_assoc, BitVec.add_comm 4#32, ← BitVec.add_assoc]
  have hplain := slot_plain hlen hmul hfit hflow (n := k + 1) (by omega)
  rw [hslot] at hplain
  exact hplain.jalr hjalr

end

/-- What a unit of a direct-control-flow program is to its source. -/
structure UnitReplays (h : Hooks H) (r : Run H) (code : Nat → Byte) (off at_ : Word) (d : Dec)
    (map : Nat → Word) (len : Word) (n : Nat) : Prop where
  run : State.bare (evalUnit h r at_ d map len).1.s = State.bare (replay h code n r off).1.s
  along : Along d (replay h code n r off).2 (evalUnit h r at_ d map len).2.2
  charge : (evalUnit h r at_ d map len).2.1 ≤ n
  jump : ∀ t, (replay h code n r off).2 = .jump t →
    n = 1 ∨ (n = 2 ∧ (oneInsn h r off (fetch code off)).2 = .done)
  out : (replay h code n r off).2 = .out → n = 1

theorem covers_evalUnit {h : Hooks H} {r : Run H} {at_ : Word} {d : Dec} {map : Nat → Word}
    {len : Word} {n : Nat} (hc : Covers d.op d.imm n) : (evalUnit h r at_ d map len).2.1 = n := by
  obtain ⟨w, rest, hemit, hcharge⟩ := @covers_charge H at_ d map len n hc
  unfold evalUnit
  rw [hemit]
  exact hcharge h r at_ _

theorem plain_charge {h : Hooks H} {r : Run H} {at_ : Word} {d : Dec} {map : Nat → Word}
    {len : Word} (hop : d.op ≤ RISCV_OP_ILLEGAL) : (evalUnit h r at_ d map len).2.1 ≤ 1 := by
  by_cases hnop : d.op = RISCV_OP_NOP
  · unfold evalUnit
    rw [emit_nop at_ d map len hnop]
    exact Nat.zero_le _
  by_cases hle : d.op ≤ RISCV_OP_NOP
  · obtain ⟨w, rest, hemit, hw⟩ := emit_cons at_ map len
      (by unfold RISCV_OP_NOP at hle; omega) hnop
    unfold evalUnit
    rw [hemit]
    exact (dispatch_single (by rw [hw]; exact hle)).le
  · have htrap : RISCV_OP_ECALL ≤ d.op ∧ d.op ≤ RISCV_OP_ILLEGAL := by
      refine ⟨?_, hop⟩
      unfold RISCV_OP_NOP at hle
      unfold RISCV_OP_ECALL
      omega
    rw [evalUnit_one (emit_trap at_ _ map len htrap),
      (dispatch_trap d h r at_ 0#32 0#32 0#32 htrap).2]

/-- **Every unit of a direct-control-flow program replays its source**: the same registers, memory
and host, and the same way on. -/
theorem unit_replays {h : Hooks H} (hblind : Hooks.Blind h) {g : MemOp → Word → Word}
    (hfix : Hooks.IsFixed h g) {r : Run H} (hx0 : r.s.x 0#5 = 0#32)
    (hspan : FRAME_SAVE_SPAN ≤ r.s.writable.len) {code : Nat → Byte} {len off : Word}
    (hlen : Sized len) (hmul : off.toNat % 4 = 0) (hfit : off.toNat + 4 ≤ len.toNat)
    (hflow : DirectFlow code len) {targets : Targets} {out d : Dec} {wd : Word}
    (hs : step code len off targets out = (d, wd)) (at_ : Word) (map : Nat → Word) :
    UnitReplays h r code off at_ d map len (wd.toNat / 4) := by
  have hplain := slot_plain hlen hmul hfit hflow (n := 0) (by omega)
  rw [slot_zero] at hplain
  unfold step at hs
  split at hs
  · rename_i u hf
    cases hs
    obtain ⟨hrun, hgoto, hdone⟩ := prologue_replays hfix r hspan at_ map len hf
    refine ⟨congrArg State.bare hrun, ?_,
      (covers_evalUnit (tryFusePrologue_covers hf).1).le, ?_, ?_⟩
    · rw [hgoto, hdone]
      trivial
    · intro t ht
      rw [hdone] at ht
      cases ht
    · intro ho
      rw [hdone] at ho
      cases ho
  split at hs
  · rename_i u hf
    cases hs
    exact (no_epilogue hlen hmul hfit hflow hf).elim
  split at hs
  · rename_i u hf
    cases hs
    exact absurd (tryFuseLa_two hf).2.2 hplain.auipc
  split at hs
  · rename_i u hf
    cases hs
    obtain ⟨hrun, halong, hn, hfirst, hout⟩ := pair_replays hlen hmul hfit hflow hfix hx0 hf at_ map
    exact ⟨hrun, halong, (covers_evalUnit (tryFusePair_covers hf).1).le, fun t _ =>
      .inr ⟨hn, hfirst⟩, fun ho => absurd ho hout⟩
  · cases hs
    have hd : foldAuipc off (decode code off) = decode code off := if_neg hplain.auipc
    have hw : (decode code off).width.toNat / 4 = 1 := by rw [decode_width]; rfl
    obtain ⟨hrun, halong⟩ := hplain.replays at_ map len (r := r) hblind
    rw [hd, hw]
    exact ⟨hrun, halong, plain_charge ((decode_op code off).resolve_right hplain.memop),
      fun t _ => .inl rfl, fun _ => rfl⟩

end Purv.Purva
