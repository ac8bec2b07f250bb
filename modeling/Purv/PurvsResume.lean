import Purv.PurvsTrap

/-!
# Resuming a run of `purvs`

An evaluator that stops early says how many records it executed, and `fixup_pc` walks the code again
to the pc behind the last of them.  Two walkers of one code: loop 1, which lowers, and `step_one`.

* `isJump`, `nextPc`, `ends` — what both make of an instruction;
* `lower_spec_jump`, `oneInsn_class` — loop 1, and the interpreter;
* `recordsAt` — the records of a run, in order;
* `fixupPc_spec` — the walk ends at the instruction behind the last record executed;
* `beforeTrap_resumes` — a round that was stopped early.
-/

namespace Purv.Purvs

open Bits Steps

variable {H : Type}

/-! ## Instructions -/

/-- Where the code goes on after an instruction that ends no run. -/
def nextPc (i : Insn) (pc : Word) : Word :=
  match stepOne i pc with
  | (_, some (_, target)) => target
  | (width, none) => pc + width

/-- An instruction leaves a record, unless it is a plain jump. -/
def leavesRecord (i : Insn) : Bool :=
  match stepOne i 0#32 with
  | (_, some (link, _)) => link
  | (_, none) => true

/-- An instruction that ends a run. -/
def endsRun (i : Insn) : Bool := !isJump i && isTerminator (opOf i)

/-- `step_one`, once for all its readers. -/
theorem stepOne_cases (i : Insn) (pc : Word) :
    (isJump i = true ∧ stepOne i pc = (i.width, some (leavesRecord i, nextPc i pc))) ∨
    (isJump i = false ∧ stepOne i pc = (i.width, none) ∧ leavesRecord i = true ∧
      nextPc i pc = pc + i.width) := by
  unfold leavesRecord nextPc
  cases i with
  | word w =>
    rw [isJump_word]
    by_cases hj : (w.extractLsb' 0 7).toNat = JAL
    · refine .inl ⟨beq_iff_eq.mpr hj, ?_⟩
      simp only [stepOne, if_pos hj]
      rfl
    · refine .inr ⟨beq_eq_false_iff_ne.mpr hj, ?_⟩
      simp only [stepOne, if_neg hj]
      exact ⟨rfl, trivial, rfl⟩
  | half c =>
    rw [isJump_half]
    by_cases hj : (c.extractLsb' 13 3).toNat * 4 + (c.extractLsb' 0 2).toNat = 5 ∨
        (c.extractLsb' 13 3).toNat * 4 + (c.extractLsb' 0 2).toNat = 21
    · refine .inl ⟨by rwa [Bool.or_eq_true, beq_iff_eq, beq_iff_eq], ?_⟩
      simp only [stepOne, if_pos hj]
      rfl
    · refine .inr ⟨?_, ?_⟩
      · rw [Bool.or_eq_false_iff, beq_eq_false_iff_ne, beq_eq_false_iff_ne]
        exact not_or.mp hj
      · simp only [stepOne, if_neg hj]
        exact ⟨rfl, trivial, rfl⟩

theorem opOf_lower (i : Insn) :
    opOf i = (lower ⟨Slot.ofImm 0, Slot.ofImm 0⟩ i 0).head.op.toNat := by
  unfold opOf decodeOne
  rw [fixup_head]

section
variable (h : Hooks H) (r : Run H) (pc : Word)

/-- A word ends a run, or the interpreter goes on behind it or at the target of a jump. -/
theorem oneInsn_word (w : Word) :
    (isJump (.word w) = true ∧ (oneInsn h r pc (.word w)).2 = .jump (nextPc (.word w) pc)) ∨
    (isJump (.word w) = false ∧ (isTerminator (opOf (.word w)) = true ∨
      (oneInsn h r pc (.word w)).2 = .done)) := by
  have hone : oneInsn h r pc (.word w) = execute h r pc 4#32 w (decode32 r.s.x w) := rfl
  rw [isJump_word, opOf_lower, hone]
  have hdec : decode32 r.s.x w = decode32 r.s.x w := rfl
  conv at hdec => rhs; unfold decode32
  split at hdec
  case h_1 _ hk =>
    refine .inr ⟨by rw [hk]; rfl, .inr ?_⟩
    rw [hdec]
    simp only
    split <;> rfl
  case h_2 _ hk =>
    refine .inr ⟨by rw [hk]; rfl, .inr ?_⟩
    rw [hdec]
    simp only
    split <;> rfl
  case h_3 _ hk =>
    refine .inr ⟨by rw [hk]; rfl, ?_⟩
    rw [hdec]
    simp only [lower, lower32, hk, execute]
    by_cases hf : w.extractLsb' 12 3 = 3#3 ∨ w.extractLsb' 12 3 > 5#3
    · exact .inl (by rw [imm_head, op_head, loadOp_illegal hf]; rfl)
    · exact .inr (by rw [if_neg hf])
  case h_4 _ hk =>
    refine .inr ⟨by rw [hk]; rfl, ?_⟩
    rw [hdec]
    simp only [lower, lower32, hk, execute]
    by_cases hf : w.extractLsb' 12 3 > 2#3
    · exact .inl (by rw [imm_head, rs2_head, op_head, storeOp_illegal hf]; rfl)
    · exact .inr (by rw [if_neg hf])
  case h_5 _ hk =>
    refine .inr ⟨by rw [hk]; rfl, .inl ?_⟩
    simp only [lower, lower32, hk, imm_head, rs2_head, op_head]
    generalize w.extractLsb' 12 3 = f3
    revert f3
    decide
  case h_6 _ hk =>
    refine .inl ⟨by rw [hk]; rfl, ?_⟩
    rw [hdec]
    unfold nextPc stepOne
    simp only [if_pos (show (w.extractLsb' 0 7).toNat = JAL from hk), execute]
  case h_7 _ hk =>
    refine .inr ⟨by rw [hk]; rfl, .inl ?_⟩
    simp only [lower, lower32, hk]
    rfl
  case h_8 _ hk => exact .inr ⟨by rw [hk]; rfl, .inr (by rw [hdec]; rfl)⟩
  case h_9 _ hk => exact .inr ⟨by rw [hk]; rfl, .inr (by rw [hdec]; rfl)⟩
  case h_10 _ hk =>
    refine .inr ⟨by rw [hk]; rfl, ?_⟩
    rw [hdec]
    simp only [lower, lower32, hk]
    split
    · exact .inl rfl
    · exact .inr rfl
  case h_11 _ hk =>
    refine .inr ⟨by rw [hk]; rfl, .inl ?_⟩
    simp only [lower, lower32, hk]
    split
    · rfl
    · split <;> rfl
  case h_12 hk =>
    refine .inr ⟨beq_eq_false_iff_ne.mpr (by assumption), .inl ?_⟩
    unfold lower lower32
    simp only
    rfl

/-- The same of a compressed instruction. -/
theorem oneInsn_half (c : Half) :
    (isJump (.half c) = true ∧ (oneInsn h r pc (.half c)).2 = .jump (nextPc (.half c) pc)) ∨
    (isJump (.half c) = false ∧ (isTerminator (opOf (.half c)) = true ∨
      (oneInsn h r pc (.half c)).2 = .done)) := by
  have hone : oneInsn h r pc (.half c) =
      execute h r pc 2#32 (c.setWidth 32) (decode16 r.s.x c) := rfl
  rw [isJump_half, opOf_lower, hone]
  have hdec : decode16 r.s.x c = decode16 r.s.x c := rfl
  conv at hdec => rhs; unfold decode16
  split at hdec
  case h_1 _ hk =>
    refine .inr ⟨by rw [hk]; rfl, ?_⟩
    rw [hdec]
    simp only [lower, lower16, hk]
    by_cases hz : addi4spnImm c = 0#32
    · exact .inl (by simp only [if_pos hz]; rfl)
    · exact .inr (by simp only [if_neg hz]; rfl)
  case h_5 _ hk =>
    refine .inl ⟨by rw [hk]; rfl, ?_⟩
    rw [hdec]
    unfold nextPc stepOne
    simp only [hk]
    rfl
  case h_6 _ hk =>
    refine .inl ⟨by rw [hk]; rfl, ?_⟩
    rw [hdec]
    unfold nextPc stepOne
    simp only [hk]
    rfl
  case h_8 _ hk =>
    refine .inr ⟨by rw [hk]; rfl, ?_⟩
    rw [hdec]
    simp only [lower, lower16, hk]
    by_cases h2 : c.extractLsb' 7 5 = 2#5
    · simp only [if_pos h2]
      by_cases hz : addi16spImm c = 0#32
      · exact .inl (by simp only [if_pos hz]; rfl)
      · exact .inr (by simp only [if_neg hz]; rfl)
    · simp only [if_neg h2]
      by_cases hz : cluiImm c = 0#32
      · exact .inl (by simp only [if_pos hz]; rfl)
      · exact .inr (by simp only [if_neg hz]; rfl)
  case h_9 _ hk =>
    refine .inr ⟨by rw [hk]; rfl, ?_⟩
    rw [hdec]
    simp only [lower, lower16, hk]
    unfold decodeMiscAlu lowerMiscAlu
    rcases two_bits (c.extractLsb' 10 2) with hf | hf | hf | hf
    all_goals simp only [hf]
    case inr.inr.inr =>
      by_cases h12 : c.extractLsb' 12 1 = 1#1
      · exact .inl (by simp only [if_pos h12]; rfl)
      · refine .inr ?_
        simp only [if_neg h12]
        split <;> rfl
    all_goals exact .inr rfl
  case h_14 _ hk =>
    refine .inr ⟨by rw [hk]; rfl, ?_⟩
    rw [hdec]
    simp only [lower, lower16, hk]
    unfold decodeJrMvAdd lowerJrMvAdd
    simp only
    split
    · split
      · exact .inl rfl
      · exact .inr rfl
    · split
      · exact .inl rfl
      · split
        · exact .inl rfl
        · exact .inr rfl
  case h_10 _ hk =>
    refine .inr ⟨by rw [hk]; rfl, .inl ?_⟩
    simp only [lower, lower16, hk]
    rfl
  case h_11 _ hk =>
    refine .inr ⟨by rw [hk]; rfl, .inl ?_⟩
    simp only [lower, lower16, hk]
    rfl
  case h_16 =>
    refine .inr ⟨?_, .inl ?_⟩
    · rw [Bool.or_eq_false_iff, beq_eq_false_iff_ne, beq_eq_false_iff_ne]
      exact ⟨by assumption, by assumption⟩
    · unfold lower lower16
      simp only
      rfl
  all_goals
    rename_i hk
    exact .inr ⟨by rw [hk]; rfl, .inr (by rw [hdec]; rfl)⟩

/-- What the interpreter does after an instruction that does not end a run. -/
theorem oneInsn_next (i : Insn) (hends : endsRun i = false) :
    (oneInsn h r pc i).2 = if isJump i then .jump (nextPc i pc) else .done := by
  have hclass : (isJump i = true ∧ (oneInsn h r pc i).2 = .jump (nextPc i pc)) ∨
      (isJump i = false ∧ (isTerminator (opOf i) = true ∨ (oneInsn h r pc i).2 = .done)) := by
    cases i with
    | word w => exact oneInsn_word h r pc w
    | half c => exact oneInsn_half h r pc c
  unfold endsRun at hends
  rcases hclass with ⟨hj, hnext⟩ | ⟨hj, hterm | hnext⟩
  · rw [hj, hnext]
    rfl
  · rw [hj, hterm] at hends
    cases hends
  · rw [hj, hnext]
    rfl

end

/-! ## Loop 1 -/

/-- The record of a jump: its link, and its target. -/
theorem decodeOne_jump (d : Pair) (i : Insn) (pc : Word) (hj : isJump i = true) :
    ((decodeOne d i pc).head.rd ≠ 0#8 ↔ leavesRecord i = true) ∧
      (decodeOne d i pc).tail.imm = nextPc i pc := by
  have hreg : ∀ rd : Reg, regByte rd ≠ 0#8 ↔ (rd != 0#5) = true := by decide
  cases i with
  | word w =>
    rw [isJump_word, beq_iff_eq] at hj
    have hj' : (w.extractLsb' 0 7).toNat = 111 := hj
    have hdec : decodeOne d (.word w) pc =
        ((((d.rd (w.extractLsb' 7 5)).rs1 (w.extractLsb' 15 5)).op RISCV_OP_JAL).imm
          (pc + jalImm w)) := by
      simp only [decodeOne, lower, lower32, hj']
      rfl
    rw [hdec]
    unfold leavesRecord nextPc stepOne
    simp only [hj, if_true]
    exact ⟨hreg _, imm_ofImm _⟩
  | half c =>
    rw [isJump_half, Bool.or_eq_true, beq_iff_eq, beq_iff_eq] at hj
    unfold leavesRecord nextPc stepOne
    have hdec : ∀ rd : Reg, (((d.rd (c.extractLsb' 7 5)).rd rd).op RISCV_OP_JAL).imm (pc + cjImm c) =
        decodeOne d (.half c) pc →
        (decodeOne d (.half c) pc).head.rd = regByte rd ∧
          (decodeOne d (.half c) pc).tail.imm = pc + cjImm c := fun rd heq => by
      rw [← heq]
      exact ⟨rfl, imm_ofImm _⟩
    rcases hj with hj | hj
    · obtain ⟨hrd, himm⟩ := hdec 1#5 (by
        simp only [decodeOne, lower, lower16, hj]
        rfl)
      simp only [hj]
      rw [hrd]
      exact ⟨iff_of_true (by decide) rfl, himm⟩
    · obtain ⟨hrd, himm⟩ := hdec 0#5 (by
        simp only [decodeOne, lower, lower16, hj]
        rfl)
      simp only [hj]
      rw [hrd]
      exact ⟨iff_of_false (by decide) Bool.false_ne_true, himm⟩

/-- An iteration of loop 1, in the terms of `step_one`. -/
theorem lower_step (a : Ahead) (i : Insn) :
    (a.lower i).1.pc = nextPc i a.pc ∧
      (a.lower i).1.n = a.n + (if leavesRecord i then 1 else 0) ∧
      (a.lower i).1.insns = a.insns + 1 ∧ (a.lower i).2 = endsRun i := by
  have hop := decoded_opOf a i
  obtain ⟨n, hn, hjump, hlow⟩ := lower_op_jump ⟨Slot.ofImm 0, Slot.ofImm 0⟩ i 0
  have hopn : opOf i = n := by
    rw [opOf_lower, hlow]
    unfold opByte RISCV_OP_END at *
    rw [BitVec.toNat_ofNat]
    omega
  unfold Ahead.lower endsRun
  simp only [hop]
  by_cases hj : isJump i = true
  · have hjal : opOf i = RISCV_OP_JAL := hopn.trans (hjump.mp hj)
    obtain ⟨hlink, htarget⟩ := decodeOne_jump ⟨a.block a.w, a.block (a.w + 1)⟩ i a.pc hj
    change (a.decoded i).head.rd ≠ 0#8 ↔ _ at hlink
    change (a.decoded i).tail.imm = _ at htarget
    rw [if_pos hjal, hj]
    by_cases hl : leavesRecord i = true
    · rw [if_pos (hlink.mpr hl), if_pos hl]
      exact ⟨htarget, rfl, rfl, rfl⟩
    · rw [if_neg fun h0 => hl (hlink.mp h0), if_neg hl]
      exact ⟨htarget, rfl, rfl, rfl⟩
  · have hjal : opOf i ≠ RISCV_OP_JAL := fun he => hj (hjump.mpr (hopn.symm.trans he))
    have hj' : isJump i = false := Bool.eq_false_iff.mpr hj
    obtain ⟨htrue, -⟩ | ⟨-, -, hleaves, hnext⟩ := stepOne_cases i a.pc
    · exact absurd htrue hj
    rw [if_neg hjal, hj', hleaves, hnext]
    exact ⟨rfl, rfl, rfl, rfl⟩

/-! ## The records of a run -/

/-- The records that loop 1 leaves from `pc` on, each as its pc and instruction. -/
def recordsAt (code : Nat → Byte) (code_len win : Word) : Nat → Word → List (Word × Insn)
  | 0, _ => []
  | left + 1, pc =>
    if mustStop code code_len win pc then []
    else
      (if leavesRecord (fetch code pc) then [(pc, fetch code pc)] else []) ++
        if endsRun (fetch code pc) then []
        else recordsAt code code_len win left (nextPc (fetch code pc) pc)

/-- An instruction of the interpreter at its pc, in code that does not change. -/
def stepAt (h : Hooks H) (code : Nat → Byte) (x : Run H × Word) : Option (Run H × Word) :=
  match oneInsn h x.1 x.2 (fetch code x.2) with
  | (r, .done) => some (r, x.2 + (fetch code x.2).width)
  | (r, .jump t) => some (r, t)
  | (_, .out) => none

section
variable {code : Nat → Byte} {code_len win : Word}

/-- The loop's count of records is theirs. -/
theorem decodeAhead_records (left : Nat) (a : Ahead) :
    (decodeAhead code code_len win left a).n =
      a.n + (recordsAt code code_len win left a.pc).length := by
  induction left generalizing a with
  | zero => rfl
  | succ left ih =>
    unfold decodeAhead recordsAt
    cases mustStop code code_len win a.pc with
    | true => rfl
    | false =>
      obtain ⟨hpc, hn, -, hends⟩ := lower_step a (fetch code a.pc)
      cases hl : a.lower (fetch code a.pc) with
      | mk a' stop =>
        rw [hl] at hpc hn hends
        simp only at hpc hn hends
        simp only [Bool.false_eq_true, if_false, List.length_append]
        rw [← hends]
        have hone : (if leavesRecord (fetch code a.pc) = true then
            [(a.pc, fetch code a.pc)] else []).length =
            if leavesRecord (fetch code a.pc) = true then 1 else 0 := by
          split <;> rfl
        cases stop with
        | true => simp only [if_true, List.length_nil, hone, hn, Nat.add_zero]
        | false =>
          simp only [Bool.false_eq_true, if_false]
          rw [ih a', hn, hpc, hone, Nat.add_assoc]

/-- No more records than instructions. -/
theorem decodeAhead_counts (left : Nat) (a : Ahead) :
    (decodeAhead code code_len win left a).n + a.insns ≤
      a.n + (decodeAhead code code_len win left a).insns := by
  induction left generalizing a with
  | zero => exact Nat.le_refl _
  | succ left ih =>
    unfold decodeAhead
    split
    · exact Nat.le_refl _
    · obtain ⟨-, hn, hinsns, -⟩ := lower_step a (fetch code a.pc)
      cases hl : a.lower (fetch code a.pc) with
      | mk a' stop =>
        rw [hl] at hn hinsns
        simp only at hn hinsns
        have hone : (if leavesRecord (fetch code a.pc) = true then 1 else 0) ≤ 1 := by
          split <;> decide
        cases stop with
        | true =>
          simp only
          omega
        | false =>
          have := ih a'
          simp only
          omega

/-- A larger budget only adds records. -/
theorem recordsAt_prefix {m n : Nat} (hmn : m ≤ n) (pc : Word) :
    recordsAt code code_len win m pc <+: recordsAt code code_len win n pc := by
  induction m generalizing n pc with
  | zero => exact List.nil_prefix
  | succ m ih =>
    obtain ⟨n, rfl⟩ : ∃ n', n = n' + 1 := ⟨n - 1, by omega⟩
    unfold recordsAt
    split
    · exact List.prefix_refl _
    · refine (List.prefix_append_right_inj _).mpr ?_
      split
      · exact List.prefix_refl _
      · exact ih (by omega) _

/-- A step of the walk. -/
theorem fixupPc_succ (code : Nat → Byte) (records fuel : Nat) (pc : Word) (recs cnt : Nat) :
    fixupPc code records (fuel + 1) pc recs cnt =
      if recs < records then
        fixupPc code records fuel (nextPc (fetch code pc) pc)
          (recs + if leavesRecord (fetch code pc) then 1 else 0) (cnt + 1)
      else (pc, cnt) := by
  rw [fixupPc]
  refine if_congr Iff.rfl ?_ rfl
  obtain ⟨-, hstep⟩ | ⟨-, hstep, hleaves, hnext⟩ := stepOne_cases (fetch code pc) pc
  · rw [hstep]
    cases leavesRecord (fetch code pc) <;> rfl
  · rw [hstep, hleaves, hnext]
    rfl

/-- The interpreter steps to where the code goes on. -/
theorem stepAt_next (h : Hooks H) (q : Run H) {pc : Word}
    (hends : endsRun (fetch code pc) = false) :
    ∃ q', stepAt h code (q, pc) = some (q', nextPc (fetch code pc) pc) := by
  have hnext := oneInsn_next h q pc (fetch code pc) hends
  unfold stepAt
  simp only
  cases hone : oneInsn h q pc (fetch code pc) with
  | mk q' nx =>
    rw [hone] at hnext
    simp only at hnext
    obtain ⟨hj, -⟩ | ⟨hj, -, -, hwidth⟩ := stepOne_cases (fetch code pc) pc
    · rw [hj, if_pos rfl] at hnext
      rw [hnext]
      exact ⟨q', rfl⟩
    · rw [hj, if_neg Bool.false_ne_true] at hnext
      rw [hnext, hwidth]
      exact ⟨q', rfl⟩

/-- The walk from `pc` past the first `r` records of a run that has more, of at most `left`
instructions. -/
structure Resumes (code : Nat → Byte) (code_len win : Word) (left : Nat) (pc : Word) (r j : Nat)
    (pc' : Word) : Prop where
  /-- The walk takes `j` instructions to `pc'`, whatever else bounds it. -/
  walk : ∀ fuel recs cnt, left ≤ fuel → fixupPc code (recs + r) fuel pc recs cnt = (pc', cnt + j)
  within : j ≤ left
  /-- These leave the first `r` records. -/
  executed : recordsAt code code_len win j pc = (recordsAt code code_len win left pc).take r
  /-- The last of them leaves the last of the records. -/
  exact_ : ∀ m, m < j → (recordsAt code code_len win m pc).length < r
  /-- The interpreter stands there after `j` instructions. -/
  stands : ∀ {H : Type} (h : Hooks H) (q : Run H), ∃ q', iter (stepAt h code) j (q, pc) = some (q', pc')
  /-- The other records are those from there on. -/
  remaining : recordsAt code code_len win (left - j) pc' =
    (recordsAt code code_len win left pc).drop r

/-- The walk and loop 1 agree, by induction on the instructions that loop 1 decodes. -/
theorem fixupPc_resumes (left : Nat) (pc : Word) (r : Nat)
    (hr : r < (recordsAt code code_len win left pc).length) :
    ∃ j pc', Resumes code code_len win left pc r j pc' := by
  induction left generalizing pc r with
  | zero => exact absurd hr (Nat.not_lt_zero r)
  | succ left ih =>
    cases r with
    | zero =>
      refine ⟨0, pc, ?_, Nat.zero_le _, rfl, fun m hm => absurd hm (Nat.not_lt_zero m),
        fun h q => ⟨q, rfl⟩, rfl⟩
      intro fuel recs cnt hfuel
      obtain ⟨fuel, rfl⟩ : ∃ fuel', fuel = fuel' + 1 := ⟨fuel - 1, by omega⟩
      rw [fixupPc_succ, if_neg (by omega)]
      rfl
    | succ r =>
      have hgo : mustStop code code_len win pc = false := by
        by_contra hstop
        rw [Bool.not_eq_false] at hstop
        rw [recordsAt, hstop] at hr
        exact absurd hr (Nat.not_lt_zero _)
      have hunfold : ∀ m, recordsAt code code_len win (m + 1) pc =
          (if leavesRecord (fetch code pc) then [(pc, fetch code pc)] else []) ++
            if endsRun (fetch code pc) then []
            else recordsAt code code_len win m (nextPc (fetch code pc) pc) := fun m => by
        rw [recordsAt, hgo]
        rfl
      -- an instruction that ends the run leaves the last of its records
      have hends : endsRun (fetch code pc) = false := by
        by_contra hstop
        rw [Bool.not_eq_false] at hstop
        rw [hunfold, hstop, if_pos rfl, List.append_nil] at hr
        split at hr
        · exact absurd hr (by simp)
        · exact absurd hr (Nat.not_lt_zero _)
      simp only [hends, Bool.false_eq_true, if_false] at hunfold
      have hstep : ∀ {H : Type} (h : Hooks H) (q : Run H), ∃ q',
          stepAt h code (q, pc) = some (q', nextPc (fetch code pc) pc) :=
        fun h q => stepAt_next h q hends
      rw [hunfold] at hr
      cases hl : leavesRecord (fetch code pc) with
      | true =>
        simp only [hl, if_true, List.singleton_append] at hunfold hr
        obtain ⟨j, pc', hres⟩ := ih (nextPc (fetch code pc) pc) r (Nat.lt_of_succ_lt_succ hr)
        refine ⟨j + 1, pc', ?_, Nat.succ_le_succ hres.within, ?_, ?_, ?_, ?_⟩
        · intro fuel recs cnt hfuel
          obtain ⟨fuel, rfl⟩ : ∃ fuel', fuel = fuel' + 1 := ⟨fuel - 1, by omega⟩
          rw [fixupPc_succ, if_pos (by omega), hl, if_pos rfl,
            show recs + (r + 1) = recs + 1 + r by omega, hres.walk fuel _ _ (by omega),
            show cnt + 1 + j = cnt + (j + 1) by omega]
        · rw [hunfold, hunfold, hres.executed, List.take_succ_cons]
        · intro m hm
          cases m with
          | zero => exact Nat.succ_pos r
          | succ m =>
            rw [hunfold, List.length_cons]
            exact Nat.succ_lt_succ (hres.exact_ m (by omega))
        · intro H h q
          obtain ⟨q₁, hq₁⟩ := hstep h q
          obtain ⟨q', hq'⟩ := hres.stands h q₁
          exact ⟨q', (iter_succ hq₁).trans hq'⟩
        · rw [hunfold, List.drop_succ_cons, Nat.add_sub_add_right]
          exact hres.remaining
      | false =>
        simp only [hl, Bool.false_eq_true, if_false, List.nil_append] at hunfold hr
        obtain ⟨j, pc', hres⟩ := ih (nextPc (fetch code pc) pc) (r + 1) hr
        refine ⟨j + 1, pc', ?_, Nat.succ_le_succ hres.within, ?_, ?_, ?_, ?_⟩
        · intro fuel recs cnt hfuel
          obtain ⟨fuel, rfl⟩ : ∃ fuel', fuel = fuel' + 1 := ⟨fuel - 1, by omega⟩
          rw [fixupPc_succ, if_pos (by omega), hl, if_neg Bool.false_ne_true]
          rw [Nat.add_zero recs, hres.walk fuel _ _ (by omega), show cnt + 1 + j = cnt + (j + 1) by omega]
        · rw [hunfold, hunfold, hres.executed]
        · intro m hm
          cases m with
          | zero => exact Nat.succ_pos r
          | succ m =>
            rw [hunfold]
            exact hres.exact_ m (by omega)
        · intro H h q
          obtain ⟨q₁, hq₁⟩ := hstep h q
          obtain ⟨q', hq'⟩ := hres.stands h q₁
          exact ⟨q', (iter_succ hq₁).trans hq'⟩
        · rw [hunfold, Nat.add_sub_add_right]
          exact hres.remaining

end

/-! ## Rounds -/

/-- The records of the round from `r`. -/
def records (code : Buf) (code_len win : Word) (lim : Nat) (r : Run H) : List (Word × Insn) :=
  recordsAt (r.s.mem code) code_len win lim r.s.pc

/-- The records of a round are those of loop 1. -/
theorem ahead_records {code : Buf} (hcode : code ≠ 0) (code_len win : Word) (lim : Nat)
    (block : Block) (r : Run H) :
    (ahead code code_len win lim block r).n = (records code code_len win lim r).length := by
  unfold ahead
  rw [if_neg hcode, decodeAhead_records]
  exact Nat.zero_add _

/-- A round with a record has an instruction. -/
theorem ahead_insns {code : Buf} {code_len win : Word} {lim : Nat} {block : Block} {r : Run H}
    (hn : (ahead code code_len win lim block r).n ≠ 0) :
    (ahead code code_len win lim block r).insns ≠ 0 := by
  unfold ahead at hn ⊢
  split at hn
  · exact absurd rfl hn
  · rename_i hcode
    rw [if_neg hcode]
    have hcounts := @decodeAhead_counts (r.s.mem code) code_len win lim ⟨block, 0, 0, r.s.pc, 0, 0⟩
    simp only at hcounts hn ⊢
    omega

/-- A round whose evaluator stops early. -/
theorem beforeTrap_early {h : Hooks H} {eval : EvalFn H} {code : Buf} {code_len win : Word}
    {lim : Nat} {block : Block} {r r' : Run H} {a : Ahead} {ran : Nat}
    (ha : ahead code code_len win lim block r = a)
    (he : eval h (r.setPc a.pc) a.closed = (r', ran)) (hran : ran < a.n) :
    beforeTrap h eval code code_len win lim block r =
      .next (r'.setPc (fixupPc (r'.s.mem code) ran lim r.s.pc 0 0).1)
        (fixupPc (r'.s.mem code) ran lim r.s.pc 0 0).2 a.closed := by
  have hn : (ahead code code_len win lim block r).n ≠ 0 := by
    rw [ha]
    omega
  have h0 := ahead_insns hn
  unfold beforeTrap
  unfold Ahead.closed at he ⊢
  simp only
  rw [ha] at hn h0 ⊢
  rw [if_neg h0, if_neg hn]
  simp only [he]
  rw [if_pos hran]

/-- **An early stop resumes exactly.**  The round goes on at the pc where the interpreter stands
after the instructions of the records executed and the plain jumps between them, counts these, and
from there the other records follow, and then whatever a larger budget adds. -/
theorem beforeTrap_resumes {h : Hooks H} {eval : EvalFn H} {code : Buf} {code_len win : Word}
    {lim : Nat} {block : Block} {r r' : Run H} {ran : Nat} (hcode : code ≠ 0)
    (heval : eval h (r.setPc (ahead code code_len win lim block r).pc)
      (ahead code code_len win lim block r).closed = (r', ran))
    (hran : ran < (ahead code code_len win lim block r).n)
    (hkeep : r'.s.mem code = r.s.mem code) :
    (ahead code code_len win lim block r).n = (records code code_len win lim r).length ∧
    ∃ j pc', Resumes (r.s.mem code) code_len win lim r.s.pc ran j pc' ∧
      beforeTrap h eval code code_len win lim block r =
        .next (r'.setPc pc') j (ahead code code_len win lim block r).closed ∧
      ∀ lim', lim - j ≤ lim' →
        (records code code_len win lim r).drop ran <+:
          records code code_len win lim' (r'.setPc pc') := by
  have hn := ahead_records hcode code_len win lim block r
  have hran' : ran < (records code code_len win lim r).length := by rwa [← hn]
  obtain ⟨j, pc', hres⟩ := fixupPc_resumes lim r.s.pc ran hran'
  refine ⟨hn, j, pc', hres, ?_, ?_⟩
  · have hwalk := hres.walk lim 0 0 (Nat.le_refl lim)
    rw [Nat.zero_add, Nat.zero_add] at hwalk
    rw [beforeTrap_early rfl heval hran, hkeep, hwalk]
  · intro lim' hlim
    have hmem : (r'.setPc pc').s.mem code = r.s.mem code := hkeep
    unfold records at *
    rw [hmem, ← hres.remaining]
    exact recordsAt_prefix hlim pc'

/-- `C.NOP`, `C.J` over nothing, `C.NOP` and `C.EBREAK`. -/
def jumpedNops : Run Unit :=
  ⟨State.boot [0x01, 0x00, 0x09, 0xa0, 0x01, 0x00, 0x02, 0x90] 0, []⟩

/-- An evaluator that says it stopped after `n` records. -/
def stopsAfter (n : Nat) : EvalFn H := fun _ r _ => (r, n)

theorem beforeTrap_resumes_nops :
    ∃ j pc', Resumes (jumpedNops.s.mem 1) 8#32 (winOf 8#32) 64 0#32 2 j pc' ∧
      beforeTrap Hooks.null (stopsAfter 2) 1 8#32 (winOf 8#32) 64 (fun _ => Slot.ofImm 0)
        jumpedNops = .next ((jumpedNops.setPc 8#32).setPc pc') j
          (ahead 1 8#32 (winOf 8#32) 64 (fun _ => Slot.ofImm 0) jumpedNops).closed ∧
      ∀ lim', 64 - j ≤ lim' → (records 1 8#32 (winOf 8#32) 64 jumpedNops).drop 2 <+:
        records 1 8#32 (winOf 8#32) lim' ((jumpedNops.setPc 8#32).setPc pc') :=
  (@beforeTrap_resumes _ Hooks.null (stopsAfter 2) 1 8#32 (winOf 8#32) 64 (fun _ => Slot.ofImm 0)
    jumpedNops (jumpedNops.setPc 8#32) 2 (by decide) rfl (by decide) rfl).2

end Purv.Purvs
