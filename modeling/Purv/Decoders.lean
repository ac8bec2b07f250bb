import Purv.PurvaTargets
import Purv.PurvsRefine

/-!
# Three decoders, one instruction

Each engine reads a 32-bit instruction by itself: `purv` into a jump to an action body, `purvs` into
a record for its evaluator, `purva` into a leaf op that `emit` packs into a word.

* `leaf` — the op of `purvs` for an op of the transcoder; `lower32_op`: the two decoders pick the
  same one for every word but a custom-0 one;
* `single`, `defaultEval_single` — one record and the end mark in the buffer, and what the default
  evaluator does with it;
* `evalUnit_decode`, `evalUnit_trap` — the op word of an unfused instruction;
* `Alike` — the three engines do the same with an instruction;
* `decoders_alike` — they do unless a reserved OP word is run on operands that tell.
-/

namespace Purv.Decoders

open Bits Isa Transcode Purva

variable {H : Type}

/-! ## The ops -/

/-- The op of `purvs` for an op of the transcoder: `AUIPC` is a `LUI` of its sum. -/
def leaf (op : Nat) : Nat := if op ≤ RISCV_OP_LUI then op else op - 1

theorem leaf_f3 : ∀ f3 : BitVec 3, Purvs.loadOp f3 = leaf (loadOp f3) ∧
    Purvs.storeOp f3 = leaf (storeOp f3) ∧ Purvs.branchOp f3 = leaf (branchOp f3) ∧
    Purvs.RISCV_OP_ADDI + f3.toNat = leaf (RISCV_OP_ADDI + f3.toNat) ∧
    Purvs.RISCV_OP_MUL + f3.toNat = leaf (RISCV_OP_MUL + f3.toNat) ∧
    Purvs.RISCV_OP_ADD + f3.toNat = leaf (RISCV_OP_ADD + f3.toNat) := by
  decide

/-- **The two decoders with ops pick the same one.** -/
theorem lower32_op (d : Purvs.Pair) (off : Word) {w : Word}
    (hc : (w.extractLsb' 0 7).toNat ≠ CUSTOM0) :
    (Purvs.lower32 d w off).head.op = Purvs.opByte (leaf (decodeWord w off).op) := by
  obtain ⟨hl, hs, hb, hi, hm, ha⟩ := leaf_f3 (w.extractLsb' 12 3)
  have hdec : decode32 (fun _ => 0#32) w = decode32 (fun _ => 0#32) w := rfl
  conv at hdec => rhs; unfold decode32
  split at hdec
  case h_1 _ hk =>
    simp only [Purvs.lower32, decodeWord, hk]
    by_cases h1 : w.extractLsb' 12 3 = 1#3
    · rw [if_pos (Or.inl h1), if_pos h1, if_neg (by rw [h1]; exact fun h => absurd h.1 (by decide)), h1]
      rfl
    · rw [if_neg h1]
      by_cases h5 : w.extractLsb' 12 3 = 5#3
      · rw [if_pos (Or.inr h5), if_pos h5, h5]
        by_cases h7 : w.extractLsb' 25 7 = 0x20#7
        · rw [if_pos ⟨rfl, h7⟩, if_pos h7]
          rfl
        · rw [if_neg fun h => h7 h.2, if_neg h7]
          rfl
      · rw [if_neg (by rintro (h | h) <;> contradiction), if_neg h5, ← hi]
        rfl
  case h_2 _ hk =>
    simp only [Purvs.lower32, decodeWord, hk]
    by_cases h7 : w.extractLsb' 25 7 = 1#7
    · rw [if_pos h7, if_pos h7, ← hm]
      rfl
    · rw [if_neg h7, if_neg h7]
      by_cases h20 : w.extractLsb' 25 7 = 0x20#7
      · rw [if_pos h20, if_pos h20]
        by_cases h0 : w.extractLsb' 12 3 = 0#3
        · rw [if_pos h0, if_pos h0]
          rfl
        · rw [if_neg h0, if_neg h0]
          rfl
      · rw [if_neg h20, if_neg h20, ← ha]
        rfl
  case h_3 _ hk =>
    simp only [Purvs.lower32, decodeWord, hk]
    rw [← hl]
    rfl
  case h_4 _ hk =>
    simp only [Purvs.lower32, decodeWord, hk]
    rw [← hs]
    rfl
  case h_5 _ hk =>
    simp only [Purvs.lower32, decodeWord, hk]
    rw [← hb]
    rfl
  case h_6 _ hk =>
    simp only [Purvs.lower32, decodeWord, hk]
    rfl
  case h_7 _ hk =>
    simp only [Purvs.lower32, decodeWord, hk]
    rfl
  case h_8 _ hk =>
    simp only [Purvs.lower32, decodeWord, hk]
    rfl
  case h_9 _ hk =>
    simp only [Purvs.lower32, decodeWord, hk]
    rfl
  case h_10 _ hk =>
    simp only [Purvs.lower32, decodeWord, hk]
    split
    · rfl
    · rfl
  case h_11 _ hk =>
    simp only [Purvs.lower32, decodeWord, hk]
    split
    · rfl
    · split
      · rfl
      · rfl
  case h_12 hne =>
    unfold Purvs.lower32 decodeWord
    simp only
    split
    case h_10 _ hk => exact absurd hk hc
    all_goals first
      | contradiction
      | rfl

/-! ## One record in the buffer -/

/-- The buffer with the record of the instruction at `pc` in its first slots and the end mark
after it. -/
def single (block : Purvs.Block) (i : Insn) (pc : Word) : Purvs.Block :=
  let d := Purvs.decodeOne ⟨block 0, block 1⟩ i pc
  let w := if Purvs.opHasImm d.head.op.toNat then 2 else 1
  let block := (block.set 0 d.head).set 1 d.tail
  block.set w { block w with op := Purvs.opByte Purvs.RISCV_OP_END }

/-- Where a run goes on: a jump sets the pc. -/
def landed : Run H × Next → Run H
  | (q, .jump t) => q.setPc t
  | (q, _) => q

section
variable (h : Hooks H) (r : Run H) (block : Purvs.Block) (i : Insn) (pc : Word) {d : Purvs.Pair}
  (hd : Purvs.decodeOne ⟨block 0, block 1⟩ i pc = d)
include hd

theorem single_head : single block i pc 0 = d.head := by
  unfold single Purvs.Block.set
  rw [hd]
  simp only
  rw [if_neg (by split <;> decide)]
  rfl

theorem single_tail (himm : Purvs.opHasImm d.head.op.toNat = true) :
    single block i pc 1 = d.tail := by
  unfold single Purvs.Block.set
  rw [hd]
  simp only [himm]
  rfl

/-- The evaluator leaves a trap to the loop. -/
theorem defaultEval_trap (htrap : Purvs.isTrap d.head.op.toNat = true) :
    Purvs.defaultEval h r (single block i pc) = (r, 1) := by
  show Purvs.defaultEvalFrom h (single block i pc) (128 + 1) r 0 = _
  rw [Purvs.defaultEvalFrom, single_head block i pc hd]
  exact if_pos htrap

/-- A trap op carries the raw word. -/
theorem single_inst (htrap : Purvs.isTrap d.head.op.toNat = true) :
    (single block i pc 1).imm = i.inst := by
  have himm : Purvs.opHasImm d.head.op.toNat = true := by
    unfold Purvs.isTrap Purvs.RISCV_OP_ECALL Purvs.RISCV_OP_ILLEGAL at htrap
    unfold Purvs.opHasImm
    simp only [Bool.or_eq_true, Bool.and_eq_true, decide_eq_true_eq] at *
    omega
  rw [single_tail block i pc hd himm, ← hd]
  rw [← hd] at htrap
  unfold Purvs.decodeOne Purvs.Pair.fixup at *
  by_cases ht : Purvs.isTrap (Purvs.lower ⟨block 0, block 1⟩ i pc).head.op.toNat = true
  · rw [if_pos ht, Purvs.imm_tail]
  · rw [if_neg ht] at htrap
    exact absurd htrap ht

/-- The evaluator runs one handler and stops at the end mark. -/
theorem defaultEval_single (htrap : Purvs.isTrap d.head.op.toNat = false) :
    (Purvs.defaultEval h r (single block i pc)).1 = (Purvs.handler h r d.head d.tail.imm).1 := by
  have hhead := single_head block i pc hd
  have hend : d.head.op.toNat ≠ Purvs.RISCV_OP_END := by
    have hlt := Purvs.decoded_op ⟨block, 0, 0, pc, 0, 0⟩ i
    change (Purvs.decodeOne ⟨block 0, block 1⟩ i pc).head.op.toNat < _ at hlt
    rw [hd] at hlt
    exact Nat.ne_of_lt hlt
  have hmark : (single block i pc (0 + if Purvs.opHasImm d.head.op.toNat then 2 else 1)).op =
      Purvs.opByte Purvs.RISCV_OP_END := by
    unfold single Purvs.Block.set
    rw [hd]
    simp only [Nat.zero_add]
    rw [if_pos trivial]
  have himm : Purvs.handler h r d.head (single block i pc 1).imm =
      Purvs.handler h r d.head d.tail.imm := by
    cases hi : Purvs.opHasImm d.head.op.toNat with
    | true => rw [single_tail block i pc hd hi]
    | false => exact Purvs.handler_imm h r _ _ hi
  show (Purvs.defaultEvalFrom h (single block i pc) (128 + 1) r 0).1 = _
  rw [Purvs.eval_step h 128 r (by rw [hhead]; exact htrap) (by rw [hhead]; exact hend), hhead,
    himm, Purvs.handler_stride h r _ htrap, Purvs.eval_sentinel h (by decide) _ hmark]

end

/-- The handler of a record, at the pc after it, does what the record means. -/
theorem handler_next (h : Hooks H) {r : Run H} {pc width : Word} (hpc : r.s.pc = pc + width)
    {d : Purvs.Pair} (htrap : Purvs.isTrap d.head.op.toNat = false) :
    (Purvs.handler h r d.head d.tail.imm).1 = landed (d.next h r pc width) ∧
      (d.next h r pc width).2 ≠ .out := by
  unfold Purvs.Pair.next
  simp only [htrap, Bool.false_eq_true, if_false]
  by_cases hj : d.head.op.toNat = Purvs.RISCV_OP_JAL
  · rw [if_pos hj, ← hpc]
    unfold Purvs.RISCV_OP_JAL at hj
    simp only [Purvs.handler, hj]
    exact ⟨rfl, fun he => by cases he⟩
  rw [if_neg hj]
  by_cases hjr : d.head.op.toNat = Purvs.RISCV_OP_JALR
  · rw [if_pos hjr, ← hpc]
    unfold Purvs.RISCV_OP_JALR at hjr
    simp only [Purvs.handler, hjr]
    exact ⟨rfl, fun he => by cases he⟩
  rw [if_neg hjr]
  cases hb : Purvs.isBranch d.head.op.toNat with
  | true =>
    rw [Purvs.handler_branch h r _ _ hb]
    unfold Purvs.hBranch
    cases Purvs.taken d.head.op.toNat (r.s.x (Purvs.regOf d.head.rs1))
      (r.s.x (Purvs.regOf d.head.rs2)) with
    | true => exact ⟨rfl, fun he => by cases he⟩
    | false => exact ⟨rfl, fun he => by cases he⟩
  | false => exact ⟨rfl, fun he => by cases he⟩

/-! ## The op word of an unfused instruction -/

/-- The displacement fits the field that `emit` cuts it to. -/
def Near (p : Word) (d : Dec) (map : Nat → Word) (len : Word) : Prop :=
  (d.op = RISCV_OP_JAL → -(2 ^ 20) ≤ (delta4 p d map len).toInt ∧
      (delta4 p d map len).toInt < 2 ^ 20) ∧
    (d.op ≠ RISCV_OP_JAL → -(2 ^ 15) ≤ (delta4 p d map len).toInt ∧
      (delta4 p d map len).toInt < 2 ^ 15)

/-- An instruction and its op word branch alike: they fall through, or go to an address that is in
a register, or the word goes to the op that `emit` found for the target. -/
def Decides (p : Word) (d : Dec) (map : Nat → Word) (len : Word) : Next → Goto → Prop
  | .done, .fall n => n = (emit p d map len).length
  | .jump t, .reloc i =>
    t = d.target ∧ (Near p d map len → i = p + (delta4 p d map len).sshiftRight 2)
  | .jump t, .indirect u => t = u
  | _, _ => False

section
variable (h : Hooks H) (r : Run H) (p off inst : Word) {d : Dec} (map : Nat → Word) (len : Word)

/-- The words of a direct jump. -/
theorem decides_direct {q : Run H} {n : Nat} {i : Word} (hop : Direct d.op)
    (he : evalUnit h r p d map len = (q, n, .reloc i)) :
    Decides p d map len (.jump d.target) (.reloc i) := by
  refine ⟨rfl, fun hnear => ?_⟩
  obtain ⟨w, rest, hemit, hdisp⟩ := displacement_emit p map len (Or.inl hop) hnear.1
    fun _ hne => hnear.2 hne
  unfold evalUnit at he
  rw [hemit] at he
  simp only at he
  rw [dispatch_reloc (congrArg (fun o => o.2.2) he), hdisp _ fun w' hw' => by rw [hw']; rfl]

/-- **The op word of an instruction that does not trap.** -/
theorem evalUnit_next (hf : Fits d) (hop : d.op ≤ RISCV_OP_NOP) :
    (evalUnit h r p d map len).1 = (d.next h r (p <<< 2) inst).1 ∧
      Decides p d map len (d.next h r off inst).2 (evalUnit h r p d map len).2.2 := by
  have hfall : ∀ w, emit p d map len = [w] →
      (∀ pc, d.next h r pc inst = ((dispatch h r p w 0#32).1, .done) ∧
        (dispatch h r p w 0#32).2 = (1, .fall 1)) →
      (evalUnit h r p d map len).1 = (d.next h r (p <<< 2) inst).1 ∧
        Decides p d map len (d.next h r off inst).2 (evalUnit h r p d map len).2.2 := by
    intro w he hw
    rw [evalUnit_one he, (hw (p <<< 2)).1, (hw off).1, (hw off).2]
    refine ⟨rfl, ?_⟩
    show 1 = (emit p d map len).length
    rw [he]
    rfl
  have hcases : (d.op ≤ RISCV_OP_SRA ∨ RISCV_OP_MUL ≤ d.op ∧ d.op ≤ RISCV_OP_REMU) ∨
      (RISCV_OP_ADDI ≤ d.op ∧ d.op ≤ RISCV_OP_SRAI) ∨ (RISCV_OP_LB ≤ d.op ∧ d.op ≤ RISCV_OP_LHU) ∨
      (RISCV_OP_SB ≤ d.op ∧ d.op ≤ RISCV_OP_SW) ∨ (RISCV_OP_BEQ ≤ d.op ∧ d.op ≤ RISCV_OP_BGEU) ∨
      d.op = RISCV_OP_JAL ∨ d.op = RISCV_OP_JALR ∨ d.op = RISCV_OP_LUI ∨ d.op = RISCV_OP_AUIPC ∨
      d.op = RISCV_OP_NOP := by
    unfold RISCV_OP_NOP RISCV_OP_SRA RISCV_OP_MUL RISCV_OP_REMU RISCV_OP_ADDI RISCV_OP_SRAI
      RISCV_OP_LB RISCV_OP_LHU RISCV_OP_SB RISCV_OP_SW RISCV_OP_BEQ RISCV_OP_BGEU RISCV_OP_JAL
      RISCV_OP_JALR RISCV_OP_LUI RISCV_OP_AUIPC at *
    omega
  rcases hcases with hk | hk | hk | hk | hk | hk | hk | hk | hk | hk
  · exact hfall _ (emit_reg p d map len hk) fun pc => dispatch_reg h r p 0#32 pc inst d hf hk
  · exact hfall _ (emit_imm p d map len (Or.inl hk)) fun pc =>
      dispatch_imm h r p 0#32 pc inst d hf hk
  · exact hfall _ (emit_imm p d map len (Or.inr (Or.inl hk))) fun pc =>
      dispatch_load h r p 0#32 pc inst d hf hk
  · exact hfall _ (emit_store p d map len hk) fun pc => dispatch_store h r p 0#32 pc inst d hf hk
  · have he := emit_branch p d map len hk
    obtain ⟨t, hn, hw⟩ := dispatch_branch h r p 0#32 off inst d ((delta4 p d map len).setWidth 16) hk
    obtain ⟨t', hn', hw'⟩ :=
      dispatch_branch h r p 0#32 (p <<< 2) inst d ((delta4 p d map len).setWidth 16) hk
    rw [hn, hn']
    cases t with
    | true =>
      have hu := (evalUnit_one he).trans hw
      rw [hu]
      exact ⟨rfl, decides_direct h r p map len (Or.inr hk) hu⟩
    | false =>
      rw [(evalUnit_one he).trans hw]
      refine ⟨rfl, ?_⟩
      show 1 = (emit p d map len).length
      rw [he]
      rfl
  · have he := emit_jal p d map len hk
    obtain ⟨hn, -⟩ := dispatch_jal d h r p 0#32 off inst (delta4 p d map len) hk
    obtain ⟨hn', hw⟩ := dispatch_jal d h r p 0#32 (p <<< 2) inst (delta4 p d map len) hk
    have hu := (evalUnit_one he).trans hw
    rw [hn, hn', hu]
    exact ⟨rfl, decides_direct h r p map len (Or.inl hk) hu⟩
  · have he := emit_imm p d map len (Or.inr (Or.inr hk))
    obtain ⟨t, hn, hw⟩ := dispatch_jalr h r p 0#32 off inst d hf hk
    obtain ⟨t', hn', hw'⟩ := dispatch_jalr h r p 0#32 (p <<< 2) inst d hf hk
    rw [hn, hn', (evalUnit_one he).trans hw]
    exact ⟨rfl, rfl⟩
  · exact hfall _ (emit_upper p d map len (Or.inl hk)) fun pc =>
      dispatch_lui d h r p 0#32 pc inst hf hk
  · have he := emit_upper p d map len (Or.inr hk)
    obtain ⟨hn, hw, hg⟩ := dispatch_auipc d h r p 0#32 off inst hf hk
    rw [evalUnit_one he, hw, hn, hg]
    refine ⟨rfl, ?_⟩
    show 1 = (emit p d map len).length
    rw [he]
    rfl
  · have he := emit_nop p d map len hk
    have hn : ∀ pc, d.next h r pc inst = (r, .done) := fun pc => by
      obtain ⟨op, rd, rs1, rs2, imm, target, width⟩ := d
      simp only at hk
      subst hk
      rfl
    unfold evalUnit
    rw [hn, hn, he]
    refine ⟨rfl, ?_⟩
    show 0 = (emit p d map len).length
    rw [he]
    rfl

end

/-- The address of an instruction is in its target only, and the target in the branch only. -/
theorem next_moved (h : Hooks H) (r : Run H) (pc inst w off : Word) :
    ((decodeWord w off).next h r pc inst).1 = ((decodeWord w pc).next h r pc inst).1 := by
  have hmoved : ({ decodeWord w off with target := 0#32 } : Dec) =
      { decodeWord w pc with target := 0#32 } := by
    unfold decodeWord
    simp only
    split
    all_goals repeat' split
    all_goals rfl
  have htarget : ∀ d : Dec, (d.next h r pc inst).1 =
      (({ d with target := 0#32 } : Dec).next h r pc inst).1 := by
    intro d
    unfold Dec.next
    simp only [apply_ite Prod.fst]
  rw [htarget, hmoved, ← htarget]

/-- Folding writes to x0 leaves traps as they are. -/
theorem foldZero_op {d : Dec} (hd : d.op ≤ RISCV_OP_ILLEGAL) :
    (d.foldZero = d ∧ RISCV_OP_ECALL ≤ d.op) ∨
      (d.foldZero.op ≤ RISCV_OP_NOP ∧ d.op ≤ RISCV_OP_NOP) := by
  unfold Dec.foldZero
  split
  · rename_i hc
    right
    refine ⟨Nat.le_refl _, ?_⟩
    rcases hc.2 with hop | hop | hop
    · exact Nat.le_trans hop (by decide)
    · exact hop ▸ by decide
    · exact hop ▸ by decide
  · unfold RISCV_OP_ILLEGAL at hd
    unfold RISCV_OP_ECALL RISCV_OP_NOP
    by_cases ht : 46 ≤ d.op
    · exact Or.inl ⟨rfl, ht⟩
    · exact Or.inr ⟨by omega, by omega⟩

/-- The traps of the two decoders with ops. -/
theorem leaf_trap {op : Nat} (hop : op ≤ RISCV_OP_ILLEGAL) :
    Purvs.isTrap (Purvs.opByte (leaf op)).toNat = decide (RISCV_OP_ECALL ≤ op) ∧
      (RISCV_OP_ECALL ≤ op → Purvs.trapOf (Purvs.opByte (leaf op)).toNat = trapOf op) := by
  revert op
  decide

/-! ## The three engines -/

/-- The three engines do the same with the instruction at `off`: the interpreter, the default
evaluator of `purvs` on the one record, and the evaluator of `purva` on the op word at index `p`.
Either each of them raises the trap `t`, or they leave the same run and branch alike.  A link and
an `auipc` of `purva` count from the address of the op. -/
inductive Alike (h : Hooks H) (r : Run H) (code : Nat → Byte) (off p : Word) (map : Nat → Word)
    (len : Word) (block : Purvs.Block) : Prop where
  | trap (t : Trap) (inst : Word)
      (purv : oneInsn h r off (fetch code off) = r.raise h off (wordAt code off) t)
      (purvs : Purvs.defaultEval h r (single block (fetch code off) off) = (r, 1))
      (purvs_op : Purvs.isTrap (single block (fetch code off) off 0).op.toNat = true)
      (purvs_kind : Purvs.trapOf (single block (fetch code off) off 0).op.toNat = t)
      (purvs_inst : (single block (fetch code off) off 1).imm = wordAt code off)
      (purva : evalUnit h r p (decode code off) map len =
        (((r.fault (p <<< 2) inst).trap h t).1, 1, .trap ((r.fault (p <<< 2) inst).trap h t).2)) :
      Alike h r code off p map len block
  | runs (q : Run H) (n : Next)
      (purv : oneInsn h r off (fetch code off) = (q, n))
      (purvs : (Purvs.defaultEval h r (single block (fetch code off) off)).1 = landed (q, n))
      (purvs_op : Purvs.isTrap (single block (fetch code off) off 0).op.toNat = false)
      (purva : (evalUnit h r p (decode code off) map len).1 =
        (oneInsn h r (p <<< 2) (fetch code off)).1)
      (purva_goto : Decides p (decode code off) map len n
        (evalUnit h r p (decode code off) map len).2.2) :
      Alike h r code off p map len block

/-- An OP word with `funct7 = 0x20` and a `funct3` that has no such form, on operands for which the
operation of that `funct3` and an arithmetic right shift differ. -/
def Confused (x : Reg → Word) (w : Word) : Prop :=
  Purvs.Quirk w ∧ w.extractLsb' 7 5 ≠ (0#5 : Reg) ∧
    ∃ o : AluOp, o.funct3 = w.extractLsb' 12 3 ∧ o.funct7 = 0#7 ∧
      o.eval (x (w.extractLsb' 15 5)) (x (w.extractLsb' 20 5)) ≠
        AluOp.sra.eval (x (w.extractLsb' 15 5)) (x (w.extractLsb' 20 5))

section
variable (h : Hooks H) (r : Run H) {code : Nat → Byte} {off : Word} (p : Word) (map : Nat → Word)
  (len : Word) (block : Purvs.Block)
  (hlow : (wordAt code off).extractLsb' 0 2 = 3#2)
  (hc : ((wordAt code off).extractLsb' 0 7).toNat ≠ CUSTOM0)
include hlow hc

/-- The op of the record. -/
theorem single_op : (single block (fetch code off) off 0).op =
    Purvs.opByte (leaf (decodeWord (wordAt code off) off).op) := by
  rw [single_head block (fetch code off) off rfl, fetch_wordAt hlow,
    ← lower32_op ⟨block 0, block 1⟩ off hc]
  show (Purvs.Pair.fixup _ _).head.op = _
  unfold Purvs.Pair.fixup
  split <;> rfl

/-- Every word but a `Quirk` is read alike. -/
theorem alike_plain (hq : ¬ Purvs.Quirk (wordAt code off)) (hpc : r.s.pc = off + 4#32) :
    Alike h r code off p map len block := by
  have hmis : ¬ Misread (wordAt code off) := by
    rintro (hq' | hc')
    · exact hq hq'
    · exact hc hc'.1
  have hone : ∀ pc, oneInsn h r pc (fetch code off) = execute h r pc 4#32 (wordAt code off)
      (decode32 r.s.x (wordAt code off)) := fun pc => by
    rw [fetch_wordAt hlow]
    rfl
  have hnext : oneInsn h r off (fetch code off) =
      (decode code off).next h r off (wordAt code off) := next_decode h r hlow hmis
  have hop := single_op block hlow hc
  have hle : (decodeWord (wordAt code off) off).op ≤ RISCV_OP_ILLEGAL :=
    (decodeWord_op _ _).resolve_right fun hm => hc hm.2
  obtain ⟨htrap, hkind⟩ := leaf_trap hle
  rw [← hop] at htrap hkind
  have hhead := single_head block (fetch code off) off rfl
  rw [hhead] at htrap hkind
  rcases foldZero_op hle with ⟨hd, hge⟩ | ⟨hd, hle'⟩
  · -- a trap op is not folded
    have hdec : decode code off = decodeWord (wordAt code off) off := hd
    rw [decide_eq_true hge] at htrap
    obtain ⟨hraise, hdisp⟩ := dispatch_trap (decode code off) h r p 0#32 off (wordAt code off)
      (by rw [hdec]; exact ⟨hge, hle⟩)
    refine .trap (trapOf (decode code off).op) (opField (decode code off).op)
      (hnext.trans hraise) (defaultEval_trap h r block _ off rfl htrap) ?_ ?_ ?_ ?_
    · rw [hhead]
      exact htrap
    · rw [hhead, hkind hge, hdec]
    · rw [single_inst block _ off rfl htrap, fetch_wordAt hlow]
      rfl
    · rw [evalUnit_one (emit_trap p _ map len (by rw [hdec]; exact ⟨hge, hle⟩)), hdisp]
  · rw [decide_eq_false (by unfold RISCV_OP_NOP at hle'; unfold RISCV_OP_ECALL; omega)] at htrap
    have hrec : (Purvs.decodeOne ⟨block 0, block 1⟩ (fetch code off) off).next h r off 4#32 =
        oneInsn h r off (fetch code off) := by
      rw [hone, fetch_wordAt hlow]
      exact Purvs.next_lower32 h r off _ hq
    obtain ⟨hrun, -⟩ := handler_next h hpc htrap
    obtain ⟨hr, hgoto⟩ := evalUnit_next h r p off (wordAt code off) map len
      (decode_fits code off) hd
    refine .runs (oneInsn h r off (fetch code off)).1 (oneInsn h r off (fetch code off)).2 rfl
      ?_ ?_ ?_ ?_
    · rw [defaultEval_single h r block _ off rfl htrap, hrun, hrec]
    · rw [hhead]
      exact htrap
    · rw [hr, hone]
      unfold decode
      rw [next_foldZero, next_moved, next_decodeWord h r (p <<< 2) hmis]
    · rw [hnext]
      exact hgoto

/-- A `Quirk` is an arithmetic shift to the decoders with ops. -/
theorem quirk_ops (hq : Purvs.Quirk (wordAt code off)) (hpc : r.s.pc = off + 4#32) :
    let w := wordAt code off
    let q := r.wr (w.extractLsb' 7 5)
      (alu (r.s.x (w.extractLsb' 15 5)) (r.s.x (w.extractLsb' 20 5)) 5#3 0x20#7)
    Purvs.isTrap (single block (fetch code off) off 0).op.toNat = false ∧
      (Purvs.defaultEval h r (single block (fetch code off) off)).1 = q ∧
      (evalUnit h r p (decode code off) map len).1 = q ∧
      Decides p (decode code off) map len .done (evalUnit h r p (decode code off) map len).2.2 := by
  obtain ⟨hk, h7, h0, h5⟩ := hq
  unfold OP at hk
  have hword : ∀ pc, (decodeWord (wordAt code off) off).op = RISCV_OP_SRA ∧
      (decodeWord (wordAt code off) off).next h r pc (wordAt code off) =
        (r.wr ((wordAt code off).extractLsb' 7 5)
          (alu (r.s.x ((wordAt code off).extractLsb' 15 5))
            (r.s.x ((wordAt code off).extractLsb' 20 5)) 5#3 0x20#7), .done) := by
    intro pc
    simp only [decodeWord, hk]
    rw [if_neg (by rw [h7]; decide), if_pos h7, if_neg h0]
    exact ⟨rfl, rfl⟩
  have hop : (single block (fetch code off) off 0).op = Purvs.opByte Purvs.RISCV_OP_SRA := by
    rw [single_op block hlow hc, (hword off).1]
    rfl
  have hhead := single_head block (fetch code off) off rfl
  have htrap : Purvs.isTrap (single block (fetch code off) off 0).op.toNat = false := by
    rw [hop]
    rfl
  rw [hhead] at hop
  have hrec : (Purvs.decodeOne ⟨block 0, block 1⟩ (fetch code off) off).next h r off 4#32 =
      (r.wr ((wordAt code off).extractLsb' 7 5)
        (alu (r.s.x ((wordAt code off).extractLsb' 15 5))
          (r.s.x ((wordAt code off).extractLsb' 20 5)) 5#3 0x20#7), .done) := by
    rw [fetch_wordAt hlow] at hop ⊢
    unfold Purvs.decodeOne at hop ⊢
    have hfix : ∀ d : Purvs.Pair, (d.fixup (Insn.word (wordAt code off)).inst).head = d.head :=
      fun d => by
        unfold Purvs.Pair.fixup
        split <;> rfl
    rw [hfix] at hop
    rw [Purvs.next_sra h r off 4#32 _ _ hop]
    simp only [Purvs.lower, Purvs.lower32, hk]
    rw [if_neg (by rw [h7]; decide), if_pos h7, if_neg h0]
    simp only [Purvs.op_head, Purvs.rs1_head, Purvs.rd_head, Purvs.rs2_head, Purvs.regOf_regByte]
  have hd : (decode code off).op ≤ RISCV_OP_NOP := by
    unfold decode
    rcases foldZero_op (d := decodeWord (wordAt code off) off) (by
      rw [(hword off).1]; decide) with ⟨-, hge⟩ | ⟨hle, -⟩
    · rw [(hword off).1] at hge
      exact absurd hge (by decide)
    · exact hle
  obtain ⟨hr, hgoto⟩ := evalUnit_next h r p off (wordAt code off) map len
    (decode_fits code off) hd
  have hdec : ∀ pc, (decode code off).next h r pc (wordAt code off) =
      (decodeWord (wordAt code off) off).next h r pc (wordAt code off) := fun pc =>
    next_foldZero h r pc _ _
  rw [hdec, (hword _).2] at hr hgoto
  refine ⟨htrap, ?_, hr, hgoto⟩
  rw [hhead] at htrap
  rw [defaultEval_single h r block _ off rfl htrap, (handler_next h hpc htrap).1, hrec]
  rfl

end

/-- The operation of a `funct3` with no `0x20` form. -/
theorem confused_iff (x : Reg → Word) {w : Word} (hq : Purvs.Quirk w) :
    Confused x w ↔ w.extractLsb' 7 5 ≠ (0#5 : Reg) ∧
      alu (x (w.extractLsb' 15 5)) (x (w.extractLsb' 20 5)) (w.extractLsb' 12 3)
          (w.extractLsb' 25 7) ≠
        alu (x (w.extractLsb' 15 5)) (x (w.extractLsb' 20 5)) 5#3 0x20#7 := by
  obtain ⟨-, h7, h0, h5⟩ := id hq
  unfold Confused
  rw [h7]
  generalize x (w.extractLsb' 15 5) = a
  generalize x (w.extractLsb' 20 5) = b
  generalize w.extractLsb' 12 3 = f3 at h0 h5
  have hbase : ∀ o : AluOp, o.funct3 = f3 → o.funct7 = 0#7 → o.eval a b = alu a b f3 0x20#7 := by
    intro o hf3 hf7
    rw [← alu_eval, hf7, hf3]
    unfold alu
    rcases three_bits f3 with hf | hf | hf | hf | hf | hf | hf | hf <;> subst hf
    case inl => exact absurd rfl h0
    case inr.inr.inr.inr.inr.inl => exact absurd rfl h5
    all_goals rfl
  have hsome : ∃ o : AluOp, o.funct3 = f3 ∧ o.funct7 = 0#7 := by
    rcases three_bits f3 with hf | hf | hf | hf | hf | hf | hf | hf <;> subst hf
    · exact absurd rfl h0
    · exact ⟨.sll, rfl, rfl⟩
    · exact ⟨.slt, rfl, rfl⟩
    · exact ⟨.sltu, rfl, rfl⟩
    · exact ⟨.xor, rfl, rfl⟩
    · exact absurd rfl h5
    · exact ⟨.or, rfl, rfl⟩
    · exact ⟨.and, rfl, rfl⟩
  have hsra : alu a b 5#3 0x20#7 = AluOp.sra.eval a b := alu_eval a b .sra
  rw [hsra]
  constructor
  · rintro ⟨-, hrd, o, hf3, hf7, hne⟩
    exact ⟨hrd, hbase o hf3 hf7 ▸ hne⟩
  · rintro ⟨hrd, hne⟩
    obtain ⟨o, hf3, hf7⟩ := hsome
    exact ⟨hq, hrd, o, hf3, hf7, (hbase o hf3 hf7).symm ▸ hne⟩

/-- **The three decoders classify an instruction alike** if and only if it is not a reserved OP word
on operands that tell its two readings apart. -/
theorem decoders_alike (h : Hooks H) (r : Run H) {code : Nat → Byte} {off : Word}
    (hlow : (wordAt code off).extractLsb' 0 2 = 3#2)
    (hc : ((wordAt code off).extractLsb' 0 7).toNat ≠ CUSTOM0) (p : Word) (map : Nat → Word)
    (len : Word) (block : Purvs.Block) :
    Alike h (r.setPc (off + 4#32)) code off p map len block ↔
      ¬ Confused r.s.x (wordAt code off) := by
  by_cases hq : Purvs.Quirk (wordAt code off)
  · rw [confused_iff r.s.x hq]
    obtain ⟨hop, hpurvs, hpurva, hgoto⟩ :=
      quirk_ops h (r.setPc (off + 4#32)) p map len block hlow hc hq rfl
    have hpurv : ∀ pc, oneInsn h (r.setPc (off + 4#32)) pc (fetch code off) =
        ((r.setPc (off + 4#32)).wr ((wordAt code off).extractLsb' 7 5)
          (alu (r.s.x ((wordAt code off).extractLsb' 15 5))
            (r.s.x ((wordAt code off).extractLsb' 20 5)) ((wordAt code off).extractLsb' 12 3)
            ((wordAt code off).extractLsb' 25 7)), .done) := by
      obtain ⟨hk, h7, -, -⟩ := hq
      unfold OP at hk
      intro pc
      rw [fetch_wordAt hlow]
      unfold oneInsn Insn.decode decode32
      simp only [hk]
      rw [if_neg (by rw [h7]; decide)]
      rfl
    constructor
    · intro hsame hne
      cases hsame with
      | trap t inst _ _ htrap =>
        rw [hop] at htrap
        cases htrap
      | runs q n hrun hrec _ _ _ =>
        rw [hpurv] at hrun
        cases hrun
        have hx := congrArg (fun q : Run H => q.s.x ((wordAt code off).extractLsb' 7 5))
          (hpurvs.symm.trans hrec)
        simp only [landed, Run.wr, wr_x, and_true, if_pos hne.1] at hx
        exact hne.2 hx.symm
    · intro hno
      have hv : ∀ q : Run H, q.wr ((wordAt code off).extractLsb' 7 5)
          (alu (r.s.x ((wordAt code off).extractLsb' 15 5))
            (r.s.x ((wordAt code off).extractLsb' 20 5)) ((wordAt code off).extractLsb' 12 3)
            ((wordAt code off).extractLsb' 25 7)) =
          q.wr ((wordAt code off).extractLsb' 7 5)
            (alu (r.s.x ((wordAt code off).extractLsb' 15 5))
              (r.s.x ((wordAt code off).extractLsb' 20 5)) 5#3 0x20#7) := by
        intro q
        by_cases hrd : (wordAt code off).extractLsb' 7 5 = (0#5 : Reg)
        · rw [hrd]
          unfold Run.wr
          rw [wr_zero, wr_zero]
        · rw [Classical.byContradiction fun hne => hno ⟨hrd, hne⟩]
      refine .runs _ .done (hpurv off) ?_ hop ?_ hgoto
      · rw [hpurvs, hv]
        rfl
      · rw [hpurva, hpurv, hv]
        rfl
  · have hplain := alike_plain h (r.setPc (off + 4#32)) p map len block hlow hc hq rfl
    exact ⟨fun _ hf => hq hf.1, fun _ => hplain⟩

/-- One word of code. -/
def oneWord (w : Word) : Nat → Byte := fun i => w.extractLsb' (8 * i) 8

/-- A use of `decoders_alike`: `sub x10, x10, x11`. -/
theorem decoders_alike_sub :
    Alike (Hooks.null : Hooks Unit) ((⟨.boot [] 0, []⟩ : Run Unit).setPc (0#32 + 4#32))
      (oneWord 0x40b50533#32) 0#32 0#32 (fun _ => TC_SENTINEL) 4#32 (fun _ => ⟨0, 0, 0, 0⟩) := by
  refine (decoders_alike Hooks.null ⟨.boot [] 0, []⟩ ?_ ?_ 0#32 _ 4#32 _).2 ?_
  · decide
  · decide
  · exact fun hcon => absurd hcon.1.2.2.1 (by decide)

/-- `funct7 = 0x20` on a `SLT` with 1 and 0: the interpreter compares, the others shift. -/
theorem decoders_differ :
    ¬ ∀ (r : Run Unit) (code : Nat → Byte) (off p : Word) (map : Nat → Word) (len : Word)
      (block : Purvs.Block), (wordAt code off).extractLsb' 0 2 = 3#2 →
      ((wordAt code off).extractLsb' 0 7).toNat ≠ CUSTOM0 →
      Alike Hooks.null (r.setPc (off + 4#32)) code off p map len block := by
  intro hall
  let s : State Unit := { State.boot [] 0 with x := fun i => if i = 10#5 then 1#32 else 0#32 }
  have halike := hall ⟨s, []⟩ (oneWord 0x40b52533#32) 0#32 0#32 (fun _ => TC_SENTINEL) 4#32
    (fun _ => ⟨0, 0, 0, 0⟩) (by decide) (by decide)
  cases halike with
  | trap t inst _ _ htrap => exact absurd htrap (by decide)
  | runs q n hrun hrec _ _ _ =>
    obtain ⟨-, hpurvs, -⟩ := @quirk_ops Unit Hooks.null (Run.setPc ⟨s, []⟩ (0#32 + 4#32))
      (oneWord 0x40b52533#32) 0#32 0#32 (fun _ => TC_SENTINEL) 4#32 (fun _ => ⟨0, 0, 0, 0⟩)
      (by decide) (by decide) ⟨by decide, by decide, by decide, by decide⟩ rfl
    have hq : q.s.x 10#5 = 0#32 := congrArg (fun o => o.1.s.x 10#5) hrun.symm
    have hs : (landed (q, n)).s.x 10#5 = 1#32 :=
      (congrArg (fun o => o.s.x 10#5) (hrec.symm.trans hpurvs)).trans (by decide)
    cases n with
    | jump t => exact absurd (hq.symm.trans hs) (by decide)
    | done => exact absurd (hq.symm.trans hs) (by decide)
    | out => exact absurd (hq.symm.trans hs) (by decide)

end Purv.Decoders
