import Purv.PurvsDecode
import Purv.Step

/-!
# `purvs` computes the runs of `purv`

A round of the run loop decodes a run of instructions before any of them executes.  The proof
follows the decode loop: while it goes on from a cursor, the evaluator, started at that cursor over
the finished buffer, keeps step with the interpreter.

* `handler_seq` — a handler of an op that falls through, in two runs that differ by their pc;
* `eval_ahead` — the evaluator over what one decode-ahead pass appends;
* `round_iter` — so a round is a run of the interpreter;
* `riscvEmulatorLoop_purvs` — and the loops return the same.
-/

namespace Purv.Purvs

open Bits Steps

variable {H : Type}

/-! ## Handlers -/

/-- The memory callback leaves `state->pc` alone. -/
def CallbackKeepsPc (h : Hooks H) : Prop :=
  ∀ f, h.callback = some f → ∀ s op a v, (f s op a v).1.pc = s.pc

theorem callback_pc {h : Hooks H} (hpc : CallbackKeepsPc h) (r : Run H) (op : MemOp) (a v : Word) :
    (r.callback h op a v).1.s.pc = r.s.pc := by
  unfold Run.callback
  split
  · rfl
  · rename_i f hf
    exact hpc f hf r.s op a v

theorem execLoad_pc {h : Hooks H} (hpc : CallbackKeepsPc h) (r : Run H) (rd : Reg) (a : Word)
    (f3 : BitVec 3) : (execLoad h r rd a f3).s.pc = r.s.pc := by
  unfold execLoad
  simp only
  split
  · rfl
  · split
    · exact wr_pc _ _ _
    · exact (wr_pc _ _ _).trans (callback_pc hpc r _ _ _)

theorem storeValue_pc (s : State H) (p : Ptr) (b : Word) (f3 : BitVec 3) :
    (storeValue s p b f3).pc = s.pc := by
  unfold storeValue
  split <;> rfl

theorem execStore_pc {h : Hooks H} (hpc : CallbackKeepsPc h) (r : Run H) (a b : Word)
    (f3 : BitVec 3) : (execStore h r a b f3).s.pc = r.s.pc := by
  unfold execStore
  split
  · exact storeValue_pc _ _ _ _
  · exact callback_pc hpc r _ _ _

/-- A handler of an op that falls through does the same in two runs that differ by their pc, and
leaves the pc alone. -/
theorem handler_seq {h : Hooks H} (hfree : h.PcFree) (hpc : CallbackKeepsPc h) {r q : Run H}
    (hrq : r.noPc = q.noPc) {d : Slot} (hop : isTerminator d.op.toNat = false) (imm : Word) :
    (handler h r d imm).1.noPc = (handler h q d imm).1.noPc ∧
      (handler h r d imm).1.s.pc = r.s.pc := by
  have hw : ∀ i v, (r.wr i v).noPc = (q.wr i v).noPc ∧ (r.wr i v).s.pc = r.s.pc := fun i v =>
    ⟨wr_noPc hrq i v, wr_pc _ _ _⟩
  have hl : ∀ f3, (hLoad h r d imm f3).1.noPc = (hLoad h q d imm f3).1.noPc ∧
      (hLoad h r d imm f3).1.s.pc = r.s.pc := fun f3 => by
    unfold hLoad
    rw [noPc_x hrq]
    exact ⟨execLoad_noPc hfree hrq _ _ _, execLoad_pc hpc _ _ _ _⟩
  have hs : ∀ f3, (hStore h r d imm f3).1.noPc = (hStore h q d imm f3).1.noPc ∧
      (hStore h r d imm f3).1.s.pc = r.s.pc := fun f3 => by
    unfold hStore
    rw [noPc_x hrq]
    exact ⟨execStore_noPc hfree hrq _ _ _, execStore_pc hpc _ _ _ _⟩
  unfold handler
  rw [noPc_x hrq]
  simp only
  split
  all_goals first
    | exact hw _ _
    | exact hl _
    | exact hs _
    | exact ⟨hrq, rfl⟩
    | (rename_i hk; rw [hk] at hop; cases hop)

/-- The cursor strides over the immediate of an op that has one. -/
theorem handler_stride (h : Hooks H) (r : Run H) {d : Slot} (imm : Word)
    (hop : isTrap d.op.toNat = false) :
    (handler h r d imm).2 = if opHasImm d.op.toNat then 2 else 1 := by
  unfold handler
  simp only
  split
  case h_45 =>
    have hno : opHasImm d.op.toNat = false := by
      simp only [imp_false] at *
      unfold isTrap RISCV_OP_ECALL RISCV_OP_ILLEGAL at hop
      unfold opHasImm
      simp only [Bool.or_eq_false_iff, Bool.and_eq_false_iff, decide_eq_false_iff_not] at hop ⊢
      omega
    rw [hno]
    rfl
  all_goals
    rename_i hk
    rw [hk]
    rfl

/-- The other ops do not read the slot after theirs. -/
theorem handler_imm (h : Hooks H) (r : Run H) {d : Slot} (imm imm' : Word)
    (hop : opHasImm d.op.toNat = false) : handler h r d imm = handler h r d imm' := by
  unfold handler
  simp only
  split
  all_goals first
    | rfl
    | (rename_i hk; rw [hk] at hop; cases hop)

/-! ## The decode loop -/

/-- The checks of loop 1 are those of the interpreter. -/
theorem mustStop_eq_false {code : Nat → Byte} {code_len pc : Word} (h4 : 4 ≤ code_len.toNat) :
    mustStop code code_len (winOf code_len) pc = false ↔ Fetchable code false code_len pc := by
  have hwin : (winOf code_len).toNat = code_len.toNat - 4 := by
    unfold winOf
    have hle : 4#32 ≤ code_len := BitVec.le_def.mpr h4
    rw [if_pos hle, BitVec.toNat_sub_of_le hle]
    rfl
  have hsub : pc.toNat < code_len.toNat → (code_len - pc).toNat = code_len.toNat - pc.toNat :=
    fun hlt => BitVec.toNat_sub_of_le (BitVec.le_def.mpr (by omega))
  unfold mustStop Fetchable
  simp only [Bool.and_eq_false_iff, Bool.or_eq_false_iff, decide_eq_false_iff_not, beq_eq_false_iff_ne,
    BitVec.lt_def, BitVec.le_def, hwin, gt_iff_lt, ge_iff_le, Nat.not_lt, Nat.not_le,
    true_and, show (2#32).toNat = 2 from rfl, show (4#32).toNat = 4 from rfl]
  constructor
  · rintro (hle | ⟨⟨hlt, h2⟩, h3⟩)
    · exact ⟨by omega, fun _ => by omega⟩
    · rw [hsub hlt] at h2 h3
      exact ⟨by omega, fun hlow => h3.elim (fun hne => absurd hlow hne) (fun _ => by omega)⟩
  · rintro ⟨h2, hlow⟩
    by_cases hle : pc.toNat ≤ code_len.toNat - 4
    · exact Or.inl hle
    · have hlt : pc.toNat < code_len.toNat := by omega
      rw [hsub hlt]
      refine Or.inr ⟨⟨hlt, by omega⟩, Or.inl fun h3 => ?_⟩
      have := hlow h3
      omega

theorem wrote_head (a : Ahead) (d : Pair) : a.wrote d a.w = d.head := by
  simp [Ahead.wrote, Block.set]

theorem wrote_tail (a : Ahead) (d : Pair) : a.wrote d (a.w + 1) = d.tail := by
  simp [Ahead.wrote, Block.set]

theorem wrote_below (a : Ahead) (d : Pair) {j : Nat} (hj : j < a.w) :
    a.wrote d j = a.block j := by
  simp [Ahead.wrote, Block.set, show j ≠ a.w by omega, show j ≠ a.w + 1 by omega]

/-- An iteration writes at its cursor, moves it on by at most two slots, and counts one
instruction. -/
theorem lower_spec (a : Ahead) (i : Insn) :
    (∀ j < a.w, (a.lower i).1.block j = a.block j) ∧ a.w ≤ (a.lower i).1.w ∧
      (a.lower i).1.w ≤ a.w + 2 ∧ (a.lower i).1.insns = a.insns + 1 := by
  unfold Ahead.lower
  simp only
  split
  · split
    · exact ⟨fun j hj => wrote_below a _ hj, by simp, by simp, rfl⟩
    · exact ⟨fun j hj => wrote_below a _ hj, by simp, by simp, rfl⟩
  · refine ⟨fun j hj => wrote_below a _ hj, by simp, ?_, rfl⟩
    simp only
    split <;> omega

theorem decodeAhead_spec (code : Nat → Byte) (code_len win : Word) (left : Nat) (a : Ahead) :
    (∀ j < a.w, (decodeAhead code code_len win left a).block j = a.block j) ∧
      a.w ≤ (decodeAhead code code_len win left a).w ∧
      (decodeAhead code code_len win left a).w ≤ a.w + 2 * left ∧
      a.insns ≤ (decodeAhead code code_len win left a).insns ∧
      (decodeAhead code code_len win left a).insns ≤ a.insns + left := by
  induction left generalizing a with
  | zero => exact ⟨fun _ _ => rfl, Nat.le_refl _, Nat.le_refl _, Nat.le_refl _, Nat.le_refl _⟩
  | succ left ih =>
    unfold decodeAhead
    split
    · exact ⟨fun _ _ => rfl, Nat.le_refl _, by omega, Nat.le_refl _, by omega⟩
    · obtain ⟨hb, hw, hw', hi⟩ := lower_spec a (fetch code a.pc)
      cases hl : a.lower (fetch code a.pc) with
      | mk a₁ stop =>
        rw [hl] at hb hw hw' hi
        simp only at hb hw hw' hi
        cases stop with
        | true =>
          simp only
          exact ⟨hb, hw, by omega, by omega, by omega⟩
        | false =>
          simp only
          obtain ⟨ihb, ihw, ihw', ihi, ihi'⟩ := ih a₁
          exact ⟨fun j hj => (ihb j (by omega)).trans (hb j hj), by omega, by omega, by omega,
            by omega⟩

/-- A pass that records nothing moves no cursor. -/
theorem decodeAhead_empty (code : Nat → Byte) (code_len win : Word) (left : Nat) (a : Ahead) :
    a.n ≤ (decodeAhead code code_len win left a).n ∧
      ((decodeAhead code code_len win left a).n = a.n →
        (decodeAhead code code_len win left a).w = a.w ∧
          (decodeAhead code code_len win left a).last_w = a.last_w) := by
  have hlow : ∀ (a : Ahead) i, ((a.lower i).1.n = a.n ∧ (a.lower i).1.w = a.w ∧
      (a.lower i).1.last_w = a.last_w) ∨ (a.lower i).1.n = a.n + 1 := fun a i => by
    unfold Ahead.lower
    simp only
    split
    · split
      · exact Or.inr rfl
      · exact Or.inl ⟨rfl, rfl, rfl⟩
    · exact Or.inr rfl
  induction left generalizing a with
  | zero => exact ⟨Nat.le_refl _, fun _ => ⟨rfl, rfl⟩⟩
  | succ left ih =>
    unfold decodeAhead
    split
    · exact ⟨Nat.le_refl _, fun _ => ⟨rfl, rfl⟩⟩
    · have h := hlow a (fetch code a.pc)
      cases hl : a.lower (fetch code a.pc) with
      | mk a₁ stop =>
        rw [hl] at h
        simp only at h
        cases stop with
        | true =>
          simp only
          rcases h with ⟨hn, hw, hlw⟩ | hn
          · exact ⟨by omega, fun _ => ⟨hw, hlw⟩⟩
          · exact ⟨by omega, fun he => by omega⟩
        | false =>
          simp only
          obtain ⟨ihn, ihw⟩ := ih a₁
          rcases h with ⟨hn, hw, hlw⟩ | hn
          · refine ⟨by omega, fun he => ?_⟩
            obtain ⟨h1, h2⟩ := ihw (by omega)
            exact ⟨h1.trans hw, h2.trans hlw⟩
          · exact ⟨by omega, fun he => by omega⟩

/-- An unconditional jump with a static target. -/
def isJump (i : Insn) : Bool := (stepOne i 0#32).2.isSome

theorem isJump_word (w : Word) : isJump (.word w) = ((w.extractLsb' 0 7).toNat == JAL) := by
  unfold isJump stepOne
  by_cases hk : (w.extractLsb' 0 7).toNat = JAL
  · rw [beq_iff_eq.mpr hk]
    simp only
    rw [if_pos hk]
    rfl
  · rw [beq_eq_false_iff_ne.mpr hk]
    simp only
    rw [if_neg hk]
    rfl

theorem isJump_half (c : Half) : isJump (.half c) =
    (((c.extractLsb' 13 3).toNat * 4 + (c.extractLsb' 0 2).toNat == 5) ||
      ((c.extractLsb' 13 3).toNat * 4 + (c.extractLsb' 0 2).toNat == 21)) := by
  unfold isJump stepOne
  simp only
  by_cases hk : (c.extractLsb' 13 3).toNat * 4 + (c.extractLsb' 0 2).toNat = 5 ∨
      (c.extractLsb' 13 3).toNat * 4 + (c.extractLsb' 0 2).toNat = 21
  · rw [if_pos hk]
    rcases hk with hk | hk <;> rw [hk] <;> rfl
  · rw [if_neg hk]
    rw [not_or] at hk
    rw [beq_eq_false_iff_ne.mpr hk.1, beq_eq_false_iff_ne.mpr hk.2]
    rfl

/-- `decode_one` stores a leaf op, never the sentinel, and `JAL` for the unconditional jumps. -/
theorem lower_op_jump (d : Pair) (i : Insn) (off : Word) :
    ∃ n, n < RISCV_OP_END ∧ (isJump i = true ↔ n = RISCV_OP_JAL) ∧
      (lower d i off).head.op = opByte n := by
  have hbound : ∀ f3 : BitVec 3, ∀ n ∈ [RISCV_OP_ADDI + f3.toNat, RISCV_OP_MUL + f3.toNat,
      RISCV_OP_ADD + f3.toNat, loadOp f3, storeOp f3, branchOp f3],
      n < RISCV_OP_END ∧ n ≠ RISCV_OP_JAL := by
    decide
  cases i with
  | word w =>
    have hops := hbound (w.extractLsb' 12 3)
    simp only [List.forall_mem_cons] at hops
    obtain ⟨h1, h2, h3, h4, h5, h6, -⟩ := hops
    have hno : ∀ {n : Nat}, (w.extractLsb' 0 7).toNat ≠ JAL → n ≠ RISCV_OP_JAL →
        (isJump (.word w) = true ↔ n = RISCV_OP_JAL) := fun hk hn => by
      rw [isJump_word, beq_iff_eq]
      exact iff_of_false hk hn
    simp only [lower, lower32]
    split
    case h_1 _ hk =>
      have hk : (w.extractLsb' 0 7).toNat ≠ JAL := by rw [hk]; decide
      split
      · split
        · exact ⟨_, by decide, hno hk (by decide), rfl⟩
        · exact ⟨_, h1.1, hno hk h1.2, rfl⟩
      · exact ⟨_, h1.1, hno hk h1.2, rfl⟩
    case h_2 _ hk =>
      have hk : (w.extractLsb' 0 7).toNat ≠ JAL := by rw [hk]; decide
      split
      · exact ⟨_, h2.1, hno hk h2.2, rfl⟩
      · split
        · split <;> exact ⟨_, by decide, hno hk (by decide), rfl⟩
        · exact ⟨_, h3.1, hno hk h3.2, rfl⟩
    case h_3 _ hk => exact ⟨_, h4.1, hno (by rw [hk]; decide) h4.2, rfl⟩
    case h_4 _ hk => exact ⟨_, h5.1, hno (by rw [hk]; decide) h5.2, rfl⟩
    case h_5 _ hk => exact ⟨_, h6.1, hno (by rw [hk]; decide) h6.2, rfl⟩
    case h_6 _ hk =>
      refine ⟨RISCV_OP_JAL, by decide, ?_, rfl⟩
      rw [isJump_word, hk]
      decide
    case h_10 _ hk =>
      split <;> exact ⟨_, by decide, hno (by rw [hk]; decide) (by decide), rfl⟩
    case h_11 _ hk =>
      have hk : (w.extractLsb' 0 7).toNat ≠ JAL := by rw [hk]; decide
      split
      · exact ⟨_, by decide, hno hk (by decide), rfl⟩
      · split <;> exact ⟨_, by decide, hno hk (by decide), rfl⟩
    case h_12 => exact ⟨_, by decide, hno (by assumption) (by decide), rfl⟩
    all_goals
      rename_i hk
      exact ⟨_, by decide, hno (by rw [hk]; decide) (by decide), rfl⟩
  | half c =>
    have hno : ∀ {k n : Nat},
        (c.extractLsb' 13 3).toNat * 4 + (c.extractLsb' 0 2).toNat = k → k ≠ 5 ∧ k ≠ 21 →
        n ≠ RISCV_OP_JAL → (isJump (.half c) = true ↔ n = RISCV_OP_JAL) := fun hk hne hn => by
      rw [isJump_half, hk, Bool.or_eq_true, beq_iff_eq, beq_iff_eq]
      exact iff_of_false (fun h => h.elim hne.1 hne.2) hn
    simp only [lower, lower16]
    split
    case h_1 _ hk =>
      split <;> exact ⟨_, by decide, hno hk (by decide) (by decide), rfl⟩
    case h_5 _ hk =>
      refine ⟨RISCV_OP_JAL, by decide, ?_, rfl⟩
      rw [isJump_half, hk]
      decide
    case h_6 _ hk =>
      refine ⟨RISCV_OP_JAL, by decide, ?_, rfl⟩
      rw [isJump_half, hk]
      decide
    case h_8 _ hk =>
      split
      · split <;> exact ⟨_, by decide, hno hk (by decide) (by decide), rfl⟩
      · split <;> exact ⟨_, by decide, hno hk (by decide) (by decide), rfl⟩
    case h_9 _ hk =>
      unfold lowerMiscAlu
      simp only
      split
      case h_4 =>
        split
        · exact ⟨_, by decide, hno hk (by decide) (by decide), rfl⟩
        · split <;> exact ⟨_, by decide, hno hk (by decide) (by decide), rfl⟩
      all_goals exact ⟨_, by decide, hno hk (by decide) (by decide), rfl⟩
    case h_14 _ hk =>
      unfold lowerJrMvAdd
      simp only
      split
      · split <;> exact ⟨_, by decide, hno hk (by decide) (by decide), rfl⟩
      · split
        · exact ⟨_, by decide, hno hk (by decide) (by decide), rfl⟩
        · split <;> exact ⟨_, by decide, hno hk (by decide) (by decide), rfl⟩
    case h_16 =>
      exact ⟨_, by decide, hno rfl ⟨by assumption, by assumption⟩ (by decide), rfl⟩
    all_goals
      rename_i hk
      exact ⟨_, by decide, hno hk (by decide) (by decide), rfl⟩

theorem lower_op (d : Pair) (i : Insn) (off : Word) :
    ∃ n, n < RISCV_OP_END ∧ (lower d i off).head.op = opByte n := by
  obtain ⟨n, hn, -, hop⟩ := lower_op_jump d i off
  exact ⟨n, hn, hop⟩

theorem decoded_op (a : Ahead) (i : Insn) : (a.decoded i).head.op.toNat < RISCV_OP_END := by
  obtain ⟨n, hn, hop⟩ := lower_op ⟨a.block a.w, a.block (a.w + 1)⟩ i a.pc
  have hfix : (a.decoded i).head = (lower ⟨a.block a.w, a.block (a.w + 1)⟩ i a.pc).head := by
    unfold Ahead.decoded decodeOne Pair.fixup
    split <;> rfl
  rw [hfix, hop]
  unfold opByte RISCV_OP_END at *
  rw [BitVec.toNat_ofNat]
  omega

/-! ## One decode-ahead pass -/

/-- The host of the simulation: it leaves the code and `x0` alone, does not look at the pc, and
never stops the loop. -/
structure Tame (h : Hooks H) (code : Buf) : Prop where
  keep : h.Keep code
  free : h.PcFree
  pc : CallbackKeepsPc h
  go : ∀ (r : Run H) (t : Trap), (r.trap h t).2 = false

/-- The instruction at the pc, if there is one, is not a quirk. -/
def PlainAt (code : Buf) (code_len : Word) (x : Run H × Word) : Prop :=
  Fetchable (x.1.s.mem code) (code == 0) code_len x.2 → Insn.Plain (fetch (x.1.s.mem code) x.2)

/-- The end of a round past the evaluator, when no handler stops. -/
def settle (h : Hooks H) (last_pc end_pc : Word) (block : Block) (last_w : Nat) (r : Run H) :
    Run H :=
  if isTrap (block last_w).op.toNat then
    ((r.fault last_pc (block (last_w + 1)).imm).trap h
      (trapOf (block last_w).op.toNat)).1.setPc end_pc
  else r

/-- `block` is what loop 1 left, closed by the sentinel. -/
structure Closed (a : Ahead) (block : Block) : Prop where
  below : ∀ j < a.w, block j = a.block j
  sentinel : (block a.w).op = opByte RISCV_OP_END

/-- The evaluator has run every record, and what it leaves is the state `y` of the interpreter. -/
structure Matches (h : Hooks H) (last_pc : Word) (a : Ahead) (block : Block) (out : Run H × Nat)
    (y : Run H × Word) : Prop where
  ran : a.n ≤ out.2
  run : (settle h last_pc a.pc block a.last_w out.1).noPc = y.1.noPc
  pc : (settle h last_pc a.pc block a.last_w out.1).s.pc = y.2

theorem eval_step (h : Hooks H) {block : Block} (fuel : Nat) (r : Run H) {d : Nat}
    (htrap : isTrap (block d).op.toNat = false) (hend : (block d).op.toNat ≠ RISCV_OP_END) :
    defaultEvalFrom h block (fuel + 1) r d =
      defaultEvalFrom h block fuel (handler h r (block d) (block (d + 1)).imm).1
        (d + (handler h r (block d) (block (d + 1)).imm).2) := by
  rw [defaultEvalFrom]
  simp only [htrap, if_neg hend]
  rfl

theorem eval_sentinel (h : Hooks H) {block : Block} {fuel : Nat} (hfuel : 0 < fuel) (r : Run H)
    {d : Nat} (hend : (block d).op = opByte RISCV_OP_END) :
    defaultEvalFrom h block fuel r d = (r, d) := by
  obtain ⟨f, rfl⟩ : ∃ f, fuel = f + 1 := ⟨fuel - 1, by omega⟩
  rw [defaultEvalFrom]
  simp only [hend]
  rfl

/-- At the end of the buffer the evaluator has caught up. -/
theorem eval_end {h : Hooks H} {last_pc : Word} {a : Ahead} {block : Block} {fuel : Nat}
    {q r : Run H} (hc : Closed a block) (hfuel : a.w < a.w + fuel) (hrq : r.noPc = q.noPc)
    (hpc : r.s.pc = a.pc) (hlast : a.last_w = a.w ∨ isTrap (block a.last_w).op.toNat = false)
    (hn : a.n ≤ a.w) :
    Matches h last_pc a block (defaultEvalFrom h block fuel r a.w) (q, a.pc) := by
  rw [eval_sentinel h (by omega) r hc.sentinel]
  replace hlast : isTrap (block a.last_w).op.toNat = false :=
    hlast.elim (fun he => by rw [he, hc.sentinel]; rfl) id
  have hs : settle h last_pc a.pc block a.last_w r = r := by
    unfold settle
    rw [hlast]
    rfl
  exact ⟨hn, by rw [hs]; exact hrq, by rw [hs]; exact hpc⟩

theorem handler_branch (h : Hooks H) (r : Run H) (d : Slot) (imm : Word)
    (hop : isBranch d.op.toNat = true) :
    handler h r d imm =
      hBranch r imm (taken d.op.toNat (r.s.x (regOf d.rs1)) (r.s.x (regOf d.rs2))) := by
  have hcases : d.op.toNat = 35 ∨ d.op.toNat = 36 ∨ d.op.toNat = 37 ∨ d.op.toNat = 38 ∨
      d.op.toNat = 39 ∨ d.op.toNat = 40 := by
    unfold isBranch RISCV_OP_BEQ RISCV_OP_BGEU at hop
    simp only [Bool.and_eq_true, decide_eq_true_eq] at hop
    omega
  rcases hcases with hk | hk | hk | hk | hk | hk <;> simp only [handler, taken, hk]

/-- The terminators other than `JAL`. -/
theorem terminator_cases {op : Nat} (hop : isTerminator op = true) (hj : op ≠ RISCV_OP_JAL) :
    isTrap op = true ∨ op = RISCV_OP_JALR ∨ isBranch op = true := by
  unfold isTerminator isTrap isBranch at *
  unfold RISCV_OP_BEQ RISCV_OP_JALR RISCV_OP_ECALL RISCV_OP_ILLEGAL RISCV_OP_JAL RISCV_OP_BGEU at *
  simp only [Bool.or_eq_true, Bool.and_eq_true, decide_eq_true_eq] at *
  omega

/-! ## What `lower` appends -/

section
variable {a : Ahead} {i : Insn}

/-- A linking jump is kept as the `LUI` of its link. -/
theorem lower_link (hj : (a.decoded i).head.op.toNat = RISCV_OP_JAL)
    (hrd : (a.decoded i).head.rd ≠ 0#8) :
    a.lower i = (
      { block := a.wrote (((a.decoded i).op RISCV_OP_LUI).imm (a.pc + i.width)),
        w := a.w + 2, last_w := a.w, pc := (a.decoded i).tail.imm, n := a.n + 1,
        insns := a.insns + 1 }, false) := by
  unfold Ahead.lower
  simp only [if_pos hj, if_pos hrd]

/-- A plain jump leaves no record. -/
theorem lower_jump (hj : (a.decoded i).head.op.toNat = RISCV_OP_JAL)
    (hrd : ¬ (a.decoded i).head.rd ≠ 0#8) :
    a.lower i = (
      { a with
        block := a.wrote (a.decoded i), pc := (a.decoded i).tail.imm,
        insns := a.insns + 1 }, false) := by
  unfold Ahead.lower
  simp only [if_pos hj, if_neg hrd]

theorem lower_record (hj : (a.decoded i).head.op.toNat ≠ RISCV_OP_JAL)
    (hterm : isTerminator (a.decoded i).head.op.toNat = false) :
    a.lower i = (
      { block := a.wrote (a.decoded i),
        w := a.w + (if opHasImm (a.decoded i).head.op.toNat then 2 else 1), last_w := a.w,
        pc := a.pc + i.width, n := a.n + 1, insns := a.insns + 1 }, false) := by
  unfold Ahead.lower
  simp only [if_neg hj, hterm]

theorem lower_terminator (hj : (a.decoded i).head.op.toNat ≠ RISCV_OP_JAL)
    (hterm : isTerminator (a.decoded i).head.op.toNat = true) :
    a.lower i = (
      { block := a.wrote (a.decoded i), w := a.w + 2, last_w := a.w, pc := a.pc + i.width,
        n := a.n + 1, insns := a.insns + 1 }, true) := by
  have himm : opHasImm (a.decoded i).head.op.toNat = true := by
    unfold opHasImm
    unfold isTerminator RISCV_OP_BEQ RISCV_OP_JALR RISCV_OP_ECALL RISCV_OP_ILLEGAL at hterm
    simp only [Bool.or_eq_true, Bool.and_eq_true, decide_eq_true_eq] at *
    omega
  unfold Ahead.lower
  simp only [if_neg hj, hterm, himm]
  rfl

end

/-! ## The last record -/

theorem branch_noTrap {op : Nat} (hbr : isBranch op = true) : isTrap op = false := by
  unfold isTrap isBranch at *
  unfold RISCV_OP_BEQ RISCV_OP_BGEU RISCV_OP_ECALL RISCV_OP_ILLEGAL at *
  simp only [Bool.and_eq_true, Bool.and_eq_false_iff, decide_eq_true_eq,
    decide_eq_false_iff_not] at *
  omega

/-- `d` is the last record in the buffer, at `w`, before the sentinel. -/
structure Last (block : Block) (w : Nat) (d : Pair) (b : Ahead) : Prop where
  head : block w = d.head
  tail : block (w + 1) = d.tail
  sentinel : (block (w + 2)).op = opByte RISCV_OP_END
  last_w : b.last_w = w
  count : b.n ≤ w + 1

section
variable {h : Hooks H} {block : Block} {w : Nat} {d : Pair} {b : Ahead} {q r : Run H}

theorem Last.settle (hl : Last block w d b) (htrap : isTrap d.head.op.toNat = false)
    (h : Hooks H) (last_pc : Word) (r : Run H) :
    settle h last_pc b.pc block b.last_w r = r := by
  unfold Purvs.settle
  rw [hl.last_w, hl.head, htrap]
  rfl

/-- A record that is no trap: its handler, and the sentinel. -/
theorem Last.eval (hl : Last block w d b) (htrap : isTrap d.head.op.toNat = false)
    (hend : d.head.op.toNat ≠ RISCV_OP_END) (himm : opHasImm d.head.op.toNat = true) (f : Nat)
    (r : Run H) :
    defaultEvalFrom h block (f + 2) r w = ((handler h r d.head d.tail.imm).1, w + 2) := by
  rw [eval_step h (f + 1) r (by rw [hl.head]; exact htrap) (by rw [hl.head]; exact hend), hl.head,
    hl.tail, handler_stride h r _ htrap, himm, if_pos rfl,
    eval_sentinel h (by omega) _ hl.sentinel]

/-- The evaluator stops at a trap; the loop performs it. -/
theorem Last.trap (hl : Last block w d b) (ht : h.PcFree) (hrq : r.noPc = q.noPc)
    (htrap : isTrap d.head.op.toNat = true) (last_pc pc : Word) (f : Nat) :
    Matches h last_pc b block (defaultEvalFrom h block (f + 2) r w)
      (((q.fault pc d.tail.imm).trap h (trapOf d.head.op.toNat)).1, b.pc) := by
  have heval : defaultEvalFrom h block (f + 2) r w = (r, w + 1) := by
    rw [defaultEvalFrom]
    simp only [hl.head, htrap, if_true]
  have hs : Purvs.settle h last_pc b.pc block b.last_w r =
      ((r.fault last_pc d.tail.imm).trap h (trapOf d.head.op.toNat)).1.setPc b.pc := by
    unfold Purvs.settle
    rw [hl.last_w, hl.head, hl.tail, htrap]
    rfl
  rw [heval]
  refine ⟨hl.count, ?_, ?_⟩
  · simp only
    rw [hs, setPc_noPc]
    exact (trap_noPc ht (fault_noPc hrq last_pc pc d.tail.imm) _).1
  · simp only
    rw [hs]
    rfl

theorem Last.jalr (hl : Last block w d b) (hrq : r.noPc = q.noPc) (hpc : r.s.pc = b.pc)
    (hjalr : d.head.op.toNat = RISCV_OP_JALR) (last_pc : Word) (f : Nat) :
    Matches h last_pc b block (defaultEvalFrom h block (f + 2) r w)
      (q.wr (regOf d.head.rd) b.pc,
        (q.s.x (regOf d.head.rs1) + d.tail.imm) &&& ~~~1#32) := by
  have htrap : isTrap d.head.op.toNat = false := by rw [hjalr]; rfl
  have himm : opHasImm d.head.op.toNat = true := by rw [hjalr]; rfl
  have hrun : (handler h r d.head d.tail.imm).1 = (r.wr (regOf d.head.rd) r.s.pc).setPc
      ((r.s.x (regOf d.head.rs1) + d.tail.imm) &&& ~~~1#32) := by
    simp only [handler, show d.head.op.toNat = 42 from hjalr]
  have hcount := hl.count
  rw [hl.eval htrap (by rw [hjalr]; decide) himm, hrun]
  refine ⟨by simp only; omega, ?_, ?_⟩
  · rw [hl.settle htrap, setPc_noPc, hpc]
    exact wr_noPc hrq _ _
  · rw [hl.settle htrap, noPc_x hrq]
    rfl

theorem Last.branch (hl : Last block w d b) (hrq : r.noPc = q.noPc) (hpc : r.s.pc = b.pc)
    (hend : d.head.op.toNat ≠ RISCV_OP_END) (hbr : isBranch d.head.op.toNat = true)
    (last_pc : Word) (f : Nat) :
    Matches h last_pc b block (defaultEvalFrom h block (f + 2) r w)
      (q, if taken d.head.op.toNat (q.s.x (regOf d.head.rs1)) (q.s.x (regOf d.head.rs2)) then
        d.tail.imm else b.pc) := by
  have htrap := branch_noTrap hbr
  have himm : opHasImm d.head.op.toNat = true := by
    unfold opHasImm
    unfold isBranch RISCV_OP_BEQ RISCV_OP_BGEU at hbr
    simp only [Bool.or_eq_true, Bool.and_eq_true, decide_eq_true_eq] at *
    omega
  have hrun := handler_branch h r d.head d.tail.imm hbr
  rw [noPc_x hrq] at hrun
  have hcount := hl.count
  rw [hl.eval htrap hend himm, hrun]
  generalize taken d.head.op.toNat (q.s.x (regOf d.head.rs1)) (q.s.x (regOf d.head.rs2)) = t
  refine ⟨by simp only; omega, ?_, ?_⟩
  · rw [hl.settle htrap]
    cases t with
    | true =>
      show (r.setPc d.tail.imm).noPc = _
      rw [setPc_noPc, hrq]
    | false => exact hrq
  · rw [hl.settle htrap]
    cases t with
    | true => rfl
    | false => exact hpc

end

/-! ## One instruction -/

/-- The step of the interpreter at a fetchable pc. -/
theorem next_fetchable {h : Hooks H} {code : Buf} {code_len : Word} {q : Run H} {pc : Word}
    (hf : Fetchable (q.s.mem code) (code == 0) code_len pc) {i : Insn}
    (hi : fetch (q.s.mem code) pc = i) :
    next h code code_len (q, pc) =
      match oneInsn h q pc i with
      | (r, .done) => some (r, pc + i.width)
      | (r, .jump t) => some (r, t)
      | (_, .out) => none := by
  subst hi
  unfold next
  exact if_pos hf

section
variable {h : Hooks H} {code : Buf} (ht : Tame h code) (last_pc : Word) {a : Ahead} {i : Insn}
  {q r : Run H} {block : Block} (fuel : Nat)
  (hrq : r.noPc = q.noPc) (hx0 : q.s.x 0#5 = 0#32) (hi : Insn.Plain i)
include ht hrq hx0 hi

/-- A record that falls through: one handler, one instruction. -/
theorem eval_record (hj : (a.decoded i).head.op.toNat ≠ RISCV_OP_JAL)
    (hterm : isTerminator (a.decoded i).head.op.toNat = false)
    (hblock : block a.w = (a.decoded i).head)
    (htail : opHasImm (a.decoded i).head.op.toNat = true → block (a.w + 1) = (a.decoded i).tail) :
    ∃ q₁ r₁, oneInsn h q a.pc i = (q₁, .done) ∧ r₁.noPc = q₁.noPc ∧ r₁.s.pc = r.s.pc ∧
      defaultEvalFrom h block (fuel + 1) r a.w =
        defaultEvalFrom h block fuel r₁
          (a.w + if opHasImm (a.decoded i).head.op.toNat then 2 else 1) := by
  generalize hd : a.decoded i = d at hj hterm hblock htail ⊢
  have hend : d.head.op.toNat ≠ RISCV_OP_END := by
    have := decoded_op a i
    rw [hd] at this
    omega
  have hparts : isTrap d.head.op.toNat = false ∧ d.head.op.toNat ≠ RISCV_OP_JALR ∧
      isBranch d.head.op.toNat = false := by
    unfold isTerminator isTrap isBranch at *
    unfold RISCV_OP_BEQ RISCV_OP_JALR RISCV_OP_ECALL RISCV_OP_ILLEGAL RISCV_OP_BGEU at *
    simp only [Bool.or_eq_false_iff, Bool.and_eq_false_iff, decide_eq_false_iff_not] at *
    omega
  obtain ⟨htrap, hjalr, hbr⟩ := hparts
  have hone := next_decodeOne h hx0 a.pc ⟨a.block a.w, a.block (a.w + 1)⟩ hi
  change (a.decoded i).next h q a.pc i.width = _ at hone
  rw [hd] at hone
  unfold Pair.next at hone
  simp only [if_neg hj, if_neg hjalr, htrap, hbr, Bool.false_eq_true, if_false] at hone
  obtain ⟨hno, hpc⟩ := handler_seq ht.free ht.pc hrq hterm d.tail.imm
  refine ⟨_, _, hone.symm, hno, hpc, ?_⟩
  rw [eval_step h fuel r (by rw [hblock]; exact htrap) (by rw [hblock]; exact hend), hblock,
    handler_stride h r _ htrap]
  cases himm : opHasImm d.head.op.toNat with
  | true => rw [htail himm]
  | false => rw [handler_imm h r (block (a.w + 1)).imm d.tail.imm himm]

omit ht hrq in
/-- A jump is its link. -/
theorem eval_jump (hj : (a.decoded i).head.op.toNat = RISCV_OP_JAL) :
    oneInsn h q a.pc i =
      (q.wr (regOf (a.decoded i).head.rd) (a.pc + i.width), .jump (a.decoded i).tail.imm) := by
  have hone := next_decodeOne h hx0 a.pc ⟨a.block a.w, a.block (a.w + 1)⟩ hi
  change (a.decoded i).next h q a.pc i.width = _ at hone
  rw [← hone]
  unfold Pair.next
  simp only [if_pos hj]

/-- The last record of a run: a branch, an indirect jump or a trap. -/
theorem eval_terminator (hj : (a.decoded i).head.op.toNat ≠ RISCV_OP_JAL)
    (hterm : isTerminator (a.decoded i).head.op.toNat = true) (hn : a.n ≤ a.w)
    (hc : Closed (a.lower i).1 block) (hpc : r.s.pc = (a.lower i).1.pc)
    (hfuel : (a.lower i).1.w < a.w + fuel) :
    ∃ y, (match oneInsn h q a.pc i with
        | (r, .done) => some (r, a.pc + i.width)
        | (r, .jump t) => some (r, t)
        | (_, .out) => none) = some y ∧
      Matches h last_pc (a.lower i).1 block (defaultEvalFrom h block fuel r a.w) y := by
  rw [lower_terminator hj hterm] at hc hpc hfuel ⊢
  simp only at hc hpc hfuel ⊢
  have hend := decoded_op a i
  have hl : Last block a.w (a.decoded i) {
      block := a.wrote (a.decoded i), w := a.w + 2, last_w := a.w, pc := a.pc + i.width,
      n := a.n + 1, insns := a.insns + 1 } := by
    refine ⟨?_, ?_, hc.sentinel, rfl, ?_⟩
    · exact (hc.below a.w (by simp)).trans (wrote_head a _)
    · exact (hc.below (a.w + 1) (by simp)).trans (wrote_tail a _)
    · simp only
      omega
  have hone := next_decodeOne h hx0 a.pc ⟨a.block a.w, a.block (a.w + 1)⟩ hi
  change (a.decoded i).next h q a.pc i.width = _ at hone
  rw [← hone]
  generalize a.decoded i = d at *
  obtain ⟨f, rfl⟩ : ∃ f, fuel = f + 2 := ⟨fuel - 2, by omega⟩
  rcases terminator_cases hterm hj with htrap | hjalr | hbr
  · have hjalr : d.head.op.toNat ≠ RISCV_OP_JALR := by
      intro hop
      rw [hop] at htrap
      cases htrap
    have hnext : d.next h q a.pc i.width =
        (((q.fault a.pc d.tail.imm).trap h (trapOf d.head.op.toNat)).1, .done) := by
      unfold Pair.next Run.raise
      simp only [if_neg hj, if_neg hjalr, htrap, if_true, ht.go, Bool.false_eq_true, if_false]
    exact ⟨_, by rw [hnext], hl.trap ht.free hrq htrap last_pc a.pc f⟩
  · have hnext : d.next h q a.pc i.width = (q.wr (regOf d.head.rd) (a.pc + i.width),
        .jump ((q.s.x (regOf d.head.rs1) + d.tail.imm) &&& ~~~1#32)) := by
      unfold Pair.next
      simp only [if_neg hj, if_pos hjalr]
    exact ⟨_, by rw [hnext], hl.jalr hrq hpc hjalr last_pc f⟩
  · have htrap := branch_noTrap hbr
    have hjalr : d.head.op.toNat ≠ RISCV_OP_JALR := by
      intro hop
      rw [hop] at hbr
      cases hbr
    have hmatch := hl.branch (h := h) hrq hpc (by omega) hbr last_pc f
    generalize htk : taken d.head.op.toNat (q.s.x (regOf d.head.rs1))
      (q.s.x (regOf d.head.rs2)) = t at hmatch
    have hnext : d.next h q a.pc i.width = (q, if t then .jump d.tail.imm else .done) := by
      unfold Pair.next
      simp only [if_neg hj, if_neg hjalr, htrap, hbr, htk, Bool.false_eq_true, if_false, if_true]
    rw [hnext]
    cases t with
    | true => exact ⟨_, rfl, hmatch⟩
    | false => exact ⟨_, rfl, hmatch⟩

end

/-- **The evaluator keeps step with the interpreter** over what one decode-ahead pass appends. -/
theorem eval_ahead {h : Hooks H} {code : Buf} (ht : Tame h code) (hcode : (code == 0) = false)
    {code_len : Word} (h4 : 4 ≤ code_len.toNat) {bytes : Nat → Byte} (last_pc : Word) {a' : Ahead}
    {block : Block} (hc : Closed a' block) {n : Nat} (left fuel : Nat) (a : Ahead)
    (ha : decodeAhead bytes code_len (winOf code_len) left a = a') {c : Nat} {q r : Run H}
    (hins : a'.insns = a.insns + c) (hbytes : q.s.mem code = bytes) (hx0 : q.s.x 0#5 = 0#32)
    (hptr : q.s.writable.ptr ≠ code) (hrq : r.noPc = q.noPc) (hpc : r.s.pc = a'.pc)
    (hlast : a.last_w = a.w ∨ isTrap (block a.last_w).op.toNat = false) (hn : a.n ≤ a.w)
    (hfuel : a'.w < a.w + fuel)
    (hplain : Every (next h code code_len) (PlainAt code code_len) (c + n) (q, a.pc)) :
    ∃ y, iter (next h code code_len) c (q, a.pc) = some y ∧
      Matches h last_pc a' block (defaultEvalFrom h block fuel r a.w) y := by
  induction left generalizing fuel a c q r with
  | zero =>
    obtain rfl : a = a' := ha
    obtain rfl : c = 0 := by omega
    exact ⟨_, rfl, eval_end hc hfuel hrq hpc hlast hn⟩
  | succ left ih =>
    rw [decodeAhead] at ha
    split at ha
    · obtain rfl : a = a' := ha
      obtain rfl : c = 0 := by omega
      exact ⟨_, rfl, eval_end hc hfuel hrq hpc hlast hn⟩
    rename_i hstop
    have hf : Fetchable (q.s.mem code) (code == 0) code_len a.pc := by
      rw [hbytes, hcode]
      exact (mustStop_eq_false h4).mp (Bool.not_eq_true _ ▸ hstop)
    have hstep := @next_fetchable H h code code_len q a.pc hf (fetch bytes a.pc) (by rw [hbytes])
    obtain ⟨hbelow, hw, hw2, hinc⟩ := lower_spec a (fetch bytes a.pc)
    generalize hi : fetch bytes a.pc = i at *
    have hmono := decodeAhead_spec bytes code_len (winOf code_len) left (a.lower i).1
    obtain ⟨c', rfl⟩ : ∃ c', c = c' + 1 := by
      refine ⟨c - 1, ?_⟩
      cases hl : a.lower i with
      | mk a₁ stop =>
        rw [hl] at ha hinc hmono
        cases stop with
        | true =>
          obtain rfl : a₁ = a' := ha
          simp only at hinc
          omega
        | false =>
          simp only at ha hinc hmono
          rw [ha] at hmono
          omega
    rw [Nat.succ_add] at hplain
    have hpl : Insn.Plain i := by
      have hp := hplain.1 hf
      simp only [hbytes, hi] at hp
      exact hp
    -- a decode loop that goes on: the induction hypothesis from the next cursor
    have hgo : ∀ (a₁ : Ahead) (q₁ r₁ : Run H) (fuel₁ : Nat), a.lower i = (a₁, false) →
        next h code code_len (q, a.pc) = some (q₁, a₁.pc) → r₁.noPc = q₁.noPc →
        r₁.s.pc = a'.pc → (a₁.last_w = a₁.w ∨ isTrap (block a₁.last_w).op.toNat = false) →
        a₁.n ≤ a₁.w → a'.w < a₁.w + fuel₁ →
        defaultEvalFrom h block fuel r a.w = defaultEvalFrom h block fuel₁ r₁ a₁.w →
        ∃ y, iter (next h code code_len) (c' + 1) (q, a.pc) = some y ∧
          Matches h last_pc a' block (defaultEvalFrom h block fuel r a.w) y := by
      intro a₁ q₁ r₁ fuel₁ hl hnext hrq₁ hpc₁ hlast₁ hn₁ hfuel₁ heval
      rw [hl] at ha hinc
      have hk := next_keeps ht.keep hptr hnext
      obtain ⟨y, hy, hm⟩ := ih fuel₁ a₁ ha (by simp only at hinc; omega : a'.insns = a₁.insns + c')
        (hk.code.trans hbytes) (hk.x0.trans hx0) (by rw [hk.ptr]; exact hptr) hrq₁ hpc₁ hlast₁
        hn₁ hfuel₁ (hplain.2 _ hnext)
      exact ⟨y, by rw [iter_succ hnext]; exact hy, by rw [heval]; exact hm⟩
    have hfinal : ∀ a₁, a.lower i = (a₁, false) →
        ∀ j < a₁.w, block j = a₁.block j := by
      intro a₁ hl j hj
      rw [hl] at ha hmono
      simp only at ha hmono
      rw [ha] at hmono
      rw [hc.below j (by omega), hmono.1 j hj]
    by_cases hj : (a.decoded i).head.op.toNat = RISCV_OP_JAL
    · have hjump := eval_jump (h := h) hx0 hpl hj
      rw [hjump] at hstep
      simp only at hstep
      by_cases hrd : (a.decoded i).head.rd ≠ 0#8
      · -- a linking jump, kept as the `LUI` of its link
        have hl := lower_link hj hrd
        have hb := hfinal _ hl
        simp only at hb
        have hhead := (hb a.w (by omega)).trans (wrote_head a _)
        have htail := (hb (a.w + 1) (by omega)).trans (wrote_tail a _)
        obtain ⟨f, rfl⟩ : ∃ f, fuel = f + 1 := ⟨fuel - 1, by
          rw [hl] at ha hmono
          simp only at ha hmono
          rw [ha] at hmono
          omega⟩
        refine hgo _ _ (r.wr (regOf (a.decoded i).head.rd) (a.pc + i.width)) f hl hstep
          (wr_noPc hrq _ _) ((wr_pc _ _ _).trans hpc) (Or.inr (by simp only; rw [hhead]; rfl))
          (by simp only; omega) (by simp only; omega) ?_
        have hne : (opByte RISCV_OP_LUI).toNat ≠ RISCV_OP_END := by decide
        rw [eval_step h f r (by rw [hhead]; rfl) (by rw [hhead]; exact hne), hhead, htail]
        simp only [imm_tail]
        rfl
      · -- a plain jump leaves no record
        have hl := lower_jump hj hrd
        have hzero : regOf (a.decoded i).head.rd = 0#5 := by
          rw [Classical.not_not.mp hrd]
          rfl
        have hq : q.wr (regOf (a.decoded i).head.rd) (a.pc + i.width) = q := by
          rw [hzero]
          unfold Run.wr
          rw [wr_zero]
        rw [hq] at hstep
        exact hgo _ _ r fuel hl hstep hrq hpc hlast hn hfuel rfl
    · cases hterm : isTerminator (a.decoded i).head.op.toNat with
      | true =>
        have hl : a.lower i = ((a.lower i).1, true) := by rw [lower_terminator hj hterm]
        rw [hl] at ha
        obtain rfl : (a.lower i).1 = a' := ha
        obtain rfl : c' = 0 := by omega
        obtain ⟨y, hy, hm⟩ := eval_terminator ht last_pc fuel hrq hx0 hpl hj hterm hn hc
          hpc hfuel
        rw [← hstep] at hy
        exact ⟨y, by rw [iter_succ hy]; rfl, hm⟩
      | false =>
        have hl := lower_record hj hterm
        have hb := hfinal _ hl
        simp only at hb
        have hhead : block a.w = (a.decoded i).head :=
          (hb a.w (by split <;> omega)).trans (wrote_head a _)
        have htail : opHasImm (a.decoded i).head.op.toNat = true →
            block (a.w + 1) = (a.decoded i).tail := fun himm =>
          (hb (a.w + 1) (by rw [himm]; simp)).trans (wrote_tail a _)
        obtain ⟨f, rfl⟩ : ∃ f, fuel = f + 1 := ⟨fuel - 1, by
          rw [hl] at ha hmono
          simp only at ha hmono
          rw [ha] at hmono
          split at hmono <;> omega⟩
        obtain ⟨q₁, r₁, hone, hrq₁, hpc₁, heval⟩ :=
          eval_record ht f hrq hx0 hpl hj hterm hhead htail
        rw [hone] at hstep
        refine hgo _ q₁ r₁ f hl hstep hrq₁ (hpc₁.trans hpc) ?_ ?_ ?_ heval
        · simp only
          rw [hhead]
          unfold isTerminator at hterm
          exact Or.inr (Bool.or_eq_false_iff.mp hterm).2
        · simp only
          split <;> omega
        · simp only
          split <;> omega

/-! ## Rounds and runs -/

section
variable {h : Hooks H} {eval : EvalFn H} {code : Buf} {code_len win : Word} {lim : Nat}
  {block : Block} {r : Run H} {a : Ahead}

theorem round_empty (hb : beforeTrap h eval code code_len win lim block r = .empty) :
    round h eval code code_len win lim block r = .empty := by
  unfold round
  rw [hb]

theorem round_next {r' : Run H} {k : Nat} {block' : Block}
    (hb : beforeTrap h eval code code_len win lim block r = .next r' k block') :
    round h eval code code_len win lim block r = .next r' k block' := by
  unfold round
  rw [hb]

theorem round_trap {p : Pending H}
    (hb : beforeTrap h eval code code_len win lim block r = .trap p) :
    round h eval code code_len win lim block r =
      if (p.fault.trap h p.t).2 then .stop (p.fault.trap h p.t).1 p.insns
      else .next ((p.fault.trap h p.t).1.setPc p.end_pc) p.insns p.block := by
  unfold round
  rw [hb]

/-- The buffer of loop 1, closed by the sentinel. -/
def Ahead.closed (a : Ahead) : Block :=
  a.block.set a.w { a.block a.w with op := opByte RISCV_OP_END }

theorem closed_closed (a : Ahead) : Closed a a.closed := by
  refine ⟨fun j hj => ?_, ?_⟩
  · simp [Ahead.closed, Block.set, show j ≠ a.w by omega]
  · simp [Ahead.closed, Block.set]

theorem beforeTrap_empty (ha : ahead code code_len win lim block r = a) (h0 : a.insns = 0) :
    beforeTrap h eval code code_len win lim block r = .empty := by
  unfold beforeTrap
  rw [ha]
  exact if_pos h0

theorem beforeTrap_jumps (ha : ahead code code_len win lim block r = a) (h0 : a.insns ≠ 0)
    (hn : a.n = 0) :
    beforeTrap h eval code code_len win lim block r = .next (r.setPc a.pc) a.insns a.block := by
  unfold beforeTrap
  rw [ha]
  exact (if_neg h0).trans (if_pos hn)

theorem beforeTrap_ran (ha : ahead code code_len win lim block r = a) (h0 : a.insns ≠ 0)
    (hn : a.n ≠ 0) {r' : Run H} {ran : Nat} (he : eval h (r.setPc a.pc) a.closed = (r', ran))
    (hran : a.n ≤ ran) :
    beforeTrap h eval code code_len win lim block r =
      if isTrap (a.closed a.last_w).op.toNat then
        .trap ⟨r', trapOf (a.closed a.last_w).op.toNat, r.s.pc, (a.closed (a.last_w + 1)).imm,
          a.pc, a.insns, a.closed⟩
      else .next r' a.insns a.closed := by
  unfold Ahead.closed at *
  unfold beforeTrap
  rw [ha]
  refine (if_neg h0).trans ((if_neg hn).trans ?_)
  simp only [he]
  exact if_neg (by omega)

end

/-- A pass that decodes nothing could not fetch. -/
theorem decodeAhead_insns {code : Nat → Byte} {code_len : Word} (h4 : 4 ≤ code_len.toNat)
    (left : Nat) (start : Ahead) (hstart : start.insns = 0)
    (h0 : (decodeAhead code code_len (winOf code_len) (left + 1) start).insns = 0) :
    ¬ Fetchable code false code_len start.pc := by
  rw [decodeAhead] at h0
  split at h0
  · rename_i hstop
    intro hf
    rw [(mustStop_eq_false h4).mpr hf] at hstop
    cases hstop
  · have hone := lower_spec start (fetch code start.pc)
    cases hl : start.lower (fetch code start.pc) with
    | mk a₁ stop =>
      rw [hl] at h0 hone
      have hmono := decodeAhead_spec code code_len (winOf code_len) left a₁
      cases stop with
      | true =>
        simp only at h0 hone
        omega
      | false =>
        simp only at h0 hone
        omega

/-- **A round of `purvs` is a run of the interpreter**, or there is nothing to fetch. -/
theorem round_iter {h : Hooks H} {code : Buf} (ht : Tame h code) (hcode : code ≠ 0)
    {code_len : Word} (h4 : 4 ≤ code_len.toNat) {q r : Run H} (hrq : r.noPc = q.noPc)
    (hx0 : q.s.x 0#5 = 0#32) (hptr : q.s.writable.ptr ≠ code) (block : Block) (lim : Nat) {max : Nat}
    (hlim : 0 < lim) (hlim' : lim ≤ RISCV_BLOCK_MAX) (hmax : lim ≤ max)
    (hplain : Every (next h code code_len) (PlainAt code code_len) max (q, r.s.pc)) :
    (¬ Fetchable (q.s.mem code) (code == 0) code_len r.s.pc ∧
      round h defaultEval code code_len (winOf code_len) lim block r = .empty) ∨
    ∃ c r' block' q', 0 < c ∧ c ≤ lim ∧
      round h defaultEval code code_len (winOf code_len) lim block r = .next r' c block' ∧
      iter (next h code code_len) c (q, r.s.pc) = some (q', r'.s.pc) ∧ r'.noPc = q'.noPc := by
  have hcode' : (code == 0) = false := beq_false_of_ne hcode
  have hmem : r.s.mem code = q.s.mem code := by rw [noPc_mem hrq]
  have hahead : ahead code code_len (winOf code_len) lim block r =
      decodeAhead (q.s.mem code) code_len (winOf code_len) lim ⟨block, 0, 0, r.s.pc, 0, 0⟩ := by
    unfold ahead
    rw [← hmem]
    exact if_neg hcode
  have hspec := decodeAhead_spec (q.s.mem code) code_len (winOf code_len) lim
    ⟨block, 0, 0, r.s.pc, 0, 0⟩
  have hnone := decodeAhead_empty (q.s.mem code) code_len (winOf code_len) lim
    ⟨block, 0, 0, r.s.pc, 0, 0⟩
  generalize ha : decodeAhead (q.s.mem code) code_len (winOf code_len) lim
    ⟨block, 0, 0, r.s.pc, 0, 0⟩ = a at hahead hspec hnone
  obtain ⟨-, -, hw, -, hins⟩ := hspec
  simp only [Nat.zero_add] at hw hins hnone
  by_cases h0 : a.insns = 0
  · refine Or.inl ⟨?_, round_empty (beforeTrap_empty hahead h0)⟩
    obtain ⟨l, rfl⟩ : ∃ l, lim = l + 1 := ⟨lim - 1, by omega⟩
    rw [hcode']
    exact decodeAhead_insns h4 l ⟨block, 0, 0, r.s.pc, 0, 0⟩ rfl (by rw [ha]; exact h0)
  · right
    obtain ⟨n, hn⟩ : ∃ n, max = a.insns + n := ⟨max - a.insns, by omega⟩
    have hc := closed_closed a
    obtain ⟨⟨q', pc'⟩, hy, hran, hrun, hpc⟩ := eval_ahead ht hcode' h4 r.s.pc hc lim
      RISCV_BLOCK_SLOTS ⟨block, 0, 0, r.s.pc, 0, 0⟩ ha (c := a.insns) (q := q)
      (r := r.setPc a.pc) (n := n) (by simp) rfl hx0 hptr hrq rfl (Or.inl rfl) (Nat.le_refl _)
      (by unfold RISCV_BLOCK_SLOTS; simp only; omega) (by rw [← hn]; exact hplain)
    simp only at hy hran hrun hpc
    by_cases hn0 : a.n = 0
    · -- only plain jumps were decoded, and the evaluator is not entered
      obtain ⟨hw0, hlw0⟩ := hnone.2 hn0
      have hs := hc.sentinel
      rw [hw0] at hs
      have heval : defaultEvalFrom h a.closed RISCV_BLOCK_SLOTS (r.setPc a.pc) 0 =
          (r.setPc a.pc, 0) := eval_sentinel h (by decide) _ hs
      have hset : settle h r.s.pc a.pc a.closed a.last_w (r.setPc a.pc) = r.setPc a.pc := by
        unfold settle
        rw [hlw0, hs]
        rfl
      rw [heval, hset] at hrun hpc
      exact ⟨a.insns, _, _, q', by omega, hins, round_next (beforeTrap_jumps hahead h0 hn0),
        by rw [hpc]; exact hy, hrun⟩
    · cases he : defaultEval h (r.setPc a.pc) a.closed with
      | mk r₁ ran =>
        have hdef : defaultEvalFrom h a.closed RISCV_BLOCK_SLOTS (r.setPc a.pc) 0 = (r₁, ran) := he
        rw [hdef] at hran hrun hpc
        have hbefore := beforeTrap_ran hahead h0 hn0 he hran
        unfold settle at hrun hpc
        by_cases htrap : isTrap (a.closed a.last_w).op.toNat = true
        · rw [if_pos htrap] at hbefore hrun hpc
          have hround := round_trap hbefore
          simp only [ht.go, Bool.false_eq_true, if_false] at hround
          exact ⟨a.insns, _, _, q', by omega, hins, hround, by rw [← hpc] at hy; exact hy, hrun⟩
        · rw [if_neg htrap] at hbefore hrun hpc
          exact ⟨a.insns, _, _, q', by omega, hins, round_next hbefore,
            by rw [← hpc] at hy; exact hy, hrun⟩

/-- The two loops return the same, up to the pc that the host saw on the way. -/
structure Agree (R Q : Result H) : Prop where
  k : R.k = Q.k
  stop : R.stop = Q.stop
  run : R.r.noPc = Q.r.noPc
  pc : R.r.s.pc = Q.r.s.pc

/-- **The run loops agree**, from any two runs that differ by the pc that the host saw. -/
theorem loopFrom_agree {h : Hooks H} {code : Buf} (ht : Tame h code) (hcode : code ≠ 0)
    {code_len : Word} (h4 : 4 ≤ code_len.toNat) (max rounds : Nat) (block : Block) {q r : Run H}
    {k : Nat} (hk : max ≤ rounds + k) (hrq : r.noPc = q.noPc) (hx0 : q.s.x 0#5 = 0#32)
    (hptr : q.s.writable.ptr ≠ code)
    (hplain : Every (next h code code_len) (PlainAt code code_len) (max - k) (q, r.s.pc)) :
    Agree (loopFrom h defaultEval code code_len (winOf code_len) max rounds block r k)
      (stepwise h code code_len (max - k) q r.s.pc k) := by
  induction rounds generalizing block q r k with
  | zero =>
    rw [show max - k = 0 by omega, loopFrom, if_neg (by omega)]
    exact ⟨rfl, rfl, hrq, rfl⟩
  | succ rounds ih =>
    rw [loopFrom]
    by_cases hlt : k < max
    · rw [if_pos hlt]
      rcases round_iter ht hcode h4 hrq hx0 hptr block (min (max - k) RISCV_BLOCK_MAX)
          (by unfold RISCV_BLOCK_MAX; omega) (by omega) (by omega) hplain with
        ⟨hf, hround⟩ | ⟨c, r', block', q', hpos, hlim, hround, hiter, hrq'⟩
      · obtain ⟨m, hm⟩ : ∃ m, max - k = m + 1 := ⟨max - k - 1, by omega⟩
        rw [hround, hm, stepwise, if_neg hf]
        exact ⟨rfl, rfl, hrq, rfl⟩
      · have hsplit : max - k = c + (max - (k + c)) := by omega
        have hkeep := iter_invariant
          (fun x : Run H × Word => x.1.s.x 0#5 = 0#32 ∧ x.1.s.writable.ptr ≠ code)
          (fun x y hx hxy => by
            have hk := next_keeps ht.keep hx.2 hxy
            exact ⟨hk.x0.trans hx.1, by rw [hk.ptr]; exact hx.2⟩) ⟨hx0, hptr⟩ hiter
        rw [hround, hsplit, stepwise_iter hiter]
        rw [hsplit] at hplain
        exact ih block' (by omega) hrq' hkeep.1 hkeep.2 (every_add hplain hiter)
    · rw [if_neg hlt, show max - k = 0 by omega]
      exact ⟨rfl, rfl, hrq, rfl⟩

/-- Without a code pointer neither engine fetches. -/
theorem loopFrom_null (h : Hooks H) {code : Buf} (hcode : code = 0) (code_len win : Word)
    (max rounds : Nat) (block : Block) (r : Run H) (hmax : max ≤ rounds) :
    Agree (loopFrom h defaultEval code code_len win max rounds block r 0)
      (stepwise h code code_len max r r.s.pc 0) := by
  subst hcode
  cases max with
  | zero =>
    cases rounds with
    | zero => exact ⟨rfl, rfl, rfl, rfl⟩
    | succ rounds => exact ⟨rfl, rfl, rfl, rfl⟩
  | succ m =>
    obtain ⟨n, rfl⟩ : ∃ n, rounds = n + 1 := ⟨rounds - 1, by omega⟩
    have hround : ∀ lim, round h defaultEval 0 code_len win lim block r = .empty := fun lim => rfl
    have hf : ¬ Fetchable (r.s.mem 0) ((0 : Buf) == 0) code_len r.s.pc := by
      rintro ⟨hnull, -⟩
      cases hnull
    rw [loopFrom, if_pos (by omega), hround, stepwise, if_neg hf]
    exact ⟨rfl, rfl, rfl, rfl⟩

/-- The instruction at the pc, if there is one, is defined or refused. -/
def DefinedAt (code : Buf) (code_len : Word) (x : Run H × Word) : Prop :=
  Fetchable (x.1.s.mem code) (code == 0) code_len x.2 →
    (fetch (x.1.s.mem code) x.2).Defined

/-- **`purvs` computes the runs of `purv`**: the same count, the same state, the same host calls. -/
theorem riscvEmulatorLoop_purvs (h : Hooks H) (r : Run H) (block : Block) (max : Nat)
    (ht : Tame h r.s.readonly.ptr) (hx0 : r.s.x 0#5 = 0#32) (h4 : 4 ≤ r.s.readonly.len.toNat)
    (hptr : r.s.writable.ptr ≠ r.s.readonly.ptr)
    (hdef : Every (next h r.s.readonly.ptr r.s.readonly.len)
      (DefinedAt r.s.readonly.ptr r.s.readonly.len) max (r, r.s.pc)) :
    let R := riscvEmulatorLoop h defaultEval block r max
    let Q := Purv.riscvEmulatorLoop h r max
    R.k = Q.k ∧ R.stop = Q.stop ∧ R.r.s = Q.r.s ∧
      R.r.log.map Call.noPc = Q.r.log.map Call.noPc := by
  intro R Q
  have hQ : Q = stepwise h r.s.readonly.ptr r.s.readonly.len max r r.s.pc 0 :=
    riscvEmulatorLoop_eq h r max
  have hag : Agree R Q := by
    rw [hQ]
    by_cases hcode : r.s.readonly.ptr = 0
    · exact loopFrom_null h hcode _ _ max max block r (Nat.le_refl _)
    · exact loopFrom_agree ht hcode h4 max max block (by omega) rfl hx0 hptr
        (every_mono (fun x hx hf => Insn.plain_of_defined (hx hf)) hdef)
  have hstate : R.r.s = Q.r.s := by
    have hs := noPc_state hag.run
    have hpc := hag.pc
    generalize R.r.s = s at hs hpc ⊢
    generalize Q.r.s = s' at hs hpc ⊢
    cases s
    cases s'
    unfold State.noPc at hs
    simp only [State.mk.injEq, true_and] at hs hpc ⊢
    exact ⟨hpc, hs⟩
  exact ⟨hag.k, hag.stop, hstate, noPc_log hag.run⟩

/-- The handlers that do nothing and let the loop go on, over a memory callback. -/
def resume (callback : Option (MemFn H)) : Hooks H :=
  ⟨some fun s => (s, false), some fun s => (s, false), some fun s => (s, false), callback⟩

theorem resume_handler (c : Option (MemFn H)) (t : Trap) :
    ((resume c).handler t).1 = some fun s => (s, false) := by
  cases t <;> rfl

theorem resume_tame (code : Buf) : Tame (resume none : Hooks H) code where
  keep := by
    refine ⟨fun t f hf s => ?_, fun f hf => by cases hf⟩
    rw [resume_handler] at hf
    cases hf
    exact Keeps.refl code s
  free := by
    refine ⟨fun t f hf s s' hs => ?_, fun f hf => by cases hf⟩
    rw [resume_handler] at hf
    cases hf
    exact ⟨hs, rfl⟩
  pc := fun f hf => by cases hf
  go := fun r t => by cases t <;> rfl

/-- `ADDI x1, x0, 5`. -/
theorem riscvEmulatorLoop_purvs_addi :
    (riscvEmulatorLoop (resume none) defaultEval (fun _ => ⟨0#8, 0#8, 0#8, 0#8⟩)
      ⟨State.boot [0x93, 0x00, 0x50, 0x00] 0, []⟩ 1).r.s.x 1#5 = 5#32 := by
  have hdef : Every (next (resume none) 1 4#32) (DefinedAt 1 4#32) 1
      (⟨State.boot [0x93, 0x00, 0x50, 0x00] 0, []⟩, 0#32) :=
    ⟨fun _ => Or.inl ⟨.opImm .addi 1#5 0#5 5#12, by decide⟩, fun _ _ => trivial⟩
  rw [(riscvEmulatorLoop_purvs (resume none) ⟨State.boot [0x93, 0x00, 0x50, 0x00] 0, []⟩ _ 1
    (resume_tame _) rfl (by decide) (by decide) hdef).2.2.1]
  decide

/-- With 1 in `x[0]`, `C.LI x1, 5` writes 5 in one engine and 6 in the other.  A callback that sets
`state->pc` moves only `purvs`; one that patches the next instruction is seen only by `purv`. -/
theorem purvs_needs_tame :
    let block : Block := fun _ => ⟨0#8, 0#8, 0#8, 0#8⟩
    let li : Run Unit := ⟨(State.boot [0x95, 0x40, 0x01, 0x00] 0).setX 0#5 1#32, []⟩
    let lw : Run Unit := ⟨State.boot [0x83, 0x20, 0x00, 0x7f, 0x13, 0x00, 0x00, 0x00] 0, []⟩
    let jumps : Hooks Unit := resume (some fun s _ _ _ => ({ s with pc := 0x100#32 }, 0#32))
    let patches : Hooks Unit := resume (some fun s _ _ _ =>
      ((s.setByte (1, 5) 0 0x01#8).setByte (1, 6) 0 0x50#8, 0#32))
    ((Purv.riscvEmulatorLoop (resume none) li 1).r.s.x 1#5 = 5#32 ∧
      (riscvEmulatorLoop (resume none) defaultEval block li 1).r.s.x 1#5 = 6#32) ∧
    ((Purv.riscvEmulatorLoop jumps lw 1).r.s.pc = 4#32 ∧
      (riscvEmulatorLoop jumps defaultEval block lw 1).r.s.pc = 0x100#32) ∧
    ((Purv.riscvEmulatorLoop patches lw 2).r.s.x 2#5 = 5#32 ∧
      (riscvEmulatorLoop patches defaultEval block lw 2).r.s.x 2#5 = 0#32) := by
  decide

end Purv.Purvs
