import Purv.Lib.Steps
import Purv.Transcode

/-!
# The two passes lay out the program identically

* `Unit` — what `step` promises: a whole number of instructions inside the code, no more words
  than instructions, and no target behind the first one;
* `Cursor`, `walk` — the state that both passes move over the units;
* `buildMap_spec`, `emitFrom_spec` — each pass, read off the walk;
* `transcodeEx_layout` — the map says where the words of every unit are.
-/

namespace Purv.Transcode

open Bits Steps

/-! ## Widths -/

/-- A whole number of instructions, clear of the top of the address space. -/
structure Sized (len : Word) : Prop where
  mul : len.toNat % 4 = 0
  top : len.toNat ≤ 2 ^ 32 - 12

/-- The address `j` instructions past `off`. -/
def slot (off : Word) (j : Nat) : Word := off + BitVec.ofNat 32 (4 * j)

theorem slot_zero (off : Word) : slot off 0 = off := BitVec.add_zero off

theorem slot_succ (off : Word) (j : Nat) : slot (off + 4#32) j = slot off (j + 1) := by
  unfold slot
  rw [BitVec.add_assoc, show 4 * (j + 1) = 4 + 4 * j by omega, BitVec.ofNat_add]

theorem toNat_slot {off : Word} {j : Nat} (h : off.toNat + 4 * j < 2 ^ 32) :
    (slot off j).toNat = off.toNat + 4 * j := by
  have hj : (BitVec.ofNat 32 (4 * j) : Word).toNat = 4 * j := by
    rw [BitVec.toNat_ofNat, Nat.mod_eq_of_lt (by omega)]
  unfold slot
  rw [BitVec.toNat_add_of_lt (by omega), hj]

theorem toNat_add_four {off len : Word} (hlen : Sized len) (ho : off.toNat ≤ len.toNat) :
    (off + 4#32).toNat = off.toNat + 4 := by
  have := hlen.top
  exact BitVec.toNat_add_of_lt (by simp; omega)

theorem toNat_add_eight {off len : Word} (hlen : Sized len) (ho : off.toNat ≤ len.toNat) :
    (off + 8#32).toNat = off.toNat + 8 := by
  have := hlen.top
  exact BitVec.toNat_add_of_lt (by simp; omega)

/-- A unit of `n` instructions at `off`. -/
structure Unit (len : Word) (targets : Targets) (off : Word) (u : Dec × Word) (n : Nat) : Prop where
  pos : 0 < n
  width : u.2.toNat = 4 * n
  fits : off.toNat + 4 * n ≤ len.toNat
  words : (opWords u.1.op).toNat ≤ n
  interior : ∀ j, 0 < j → j < n → targets.has (slot off j) = false

theorem opWords_le_one {op : Nat} (h : op ≠ RISCV_OP_LW_BZ) (h' : op ≠ RISCV_OP_LBU_BZ) :
    (opWords op).toNat ≤ 1 := by
  unfold opWords
  split
  · decide
  · rw [if_neg fun hc => hc.elim h h']
    decide

theorem opWords_pos {op : Nat} (h : op ≠ RISCV_OP_NOP) : 0 < (opWords op).toNat := by
  unfold opWords
  rw [if_neg h]
  split
  · decide
  · decide

theorem opWords_le_two (op : Nat) : (opWords op).toNat ≤ 2 := by
  unfold opWords
  split
  · decide
  · split <;> decide

/-- What the saves of a prologue cover. -/
theorem prologueSaves_spec (code : Nat → Byte) {len : Word} (hlen : Sized len) (targets : Targets) :
    ∀ (left : Nat) (o : Word), o.toNat ≤ len.toNat →
      (prologueSaves code len targets left o).length ≤ left ∧
      o.toNat + 4 * (prologueSaves code len targets left o).length ≤ len.toNat ∧
      ∀ j < (prologueSaves code len targets left o).length, targets.has (slot o j) = false
  | 0, o, ho => ⟨Nat.le_refl 0, ho, fun j hj => absurd hj (Nat.not_lt_zero j)⟩
  | left + 1, o, ho => by
    unfold prologueSaves
    by_cases h4 : o + 4#32 ≤ len
    · rw [if_pos h4]
      rw [BitVec.le_def, toNat_add_four hlen ho] at h4
      cases hhas : targets.has o with
      | true => exact ⟨Nat.zero_le _, by simpa using ho, fun j hj => absurd hj (Nat.not_lt_zero j)⟩
      | false =>
        simp only [Bool.false_eq_true, if_false]
        split
        · exact ⟨Nat.zero_le _, by simpa using ho, fun j hj => absurd hj (Nat.not_lt_zero j)⟩
        · obtain ⟨h1, h2, h3⟩ := prologueSaves_spec code hlen targets left (o + 4#32)
            (by rw [toNat_add_four hlen ho]; exact h4)
          rw [toNat_add_four hlen ho] at h2
          refine ⟨by rw [List.length_cons]; omega, by rw [List.length_cons]; omega, fun j hj => ?_⟩
          cases j with
          | zero => rwa [slot_zero]
          | succ j =>
            rw [← slot_succ]
            exact h3 j (by rw [List.length_cons] at hj; omega)
    · rw [if_neg h4]
      exact ⟨Nat.zero_le _, by simpa using ho, fun j hj => absurd hj (Nat.not_lt_zero j)⟩

/-- What the loads of an epilogue cover. -/
theorem epilogueLoads_spec (code : Nat → Byte) {len : Word} (hlen : Sized len) (off : Word)
    (targets : Targets) :
    ∀ (left : Nat) (o : Word), o.toNat ≤ len.toNat →
      (epilogueLoads code len off targets left o).length ≤ left ∧
      o.toNat + 4 * (epilogueLoads code len off targets left o).length ≤ len.toNat ∧
      ∀ j < (epilogueLoads code len off targets left o).length,
        slot o j ≠ off → targets.has (slot o j) = false
  | 0, o, ho => ⟨Nat.le_refl 0, ho, fun j hj => absurd hj (Nat.not_lt_zero j)⟩
  | left + 1, o, ho => by
    unfold epilogueLoads
    by_cases h4 : o + 4#32 ≤ len
    · rw [if_pos h4]
      rw [BitVec.le_def, toNat_add_four hlen ho] at h4
      by_cases hhas : o ≠ off ∧ targets.has o
      · rw [if_pos hhas]
        exact ⟨Nat.zero_le _, by simpa using ho, fun j hj => absurd hj (Nat.not_lt_zero j)⟩
      · rw [if_neg hhas]
        simp only
        split
        · exact ⟨Nat.zero_le _, by simpa using ho, fun j hj => absurd hj (Nat.not_lt_zero j)⟩
        · obtain ⟨h1, h2, h3⟩ := epilogueLoads_spec code hlen off targets left (o + 4#32)
            (by rw [toNat_add_four hlen ho]; exact h4)
          rw [toNat_add_four hlen ho] at h2
          refine ⟨by rw [List.length_cons]; omega, by rw [List.length_cons]; omega, fun j hj => ?_⟩
          cases j with
          | zero =>
            intro hne
            rw [slot_zero] at hne ⊢
            exact Bool.eq_false_iff.2 fun hc => hhas ⟨hne, hc⟩
          | succ j =>
            rw [← slot_succ]
            exact h3 j (by rw [List.length_cons] at hj; omega)
    · rw [if_neg h4]
      exact ⟨Nat.zero_le _, by simpa using ho, fun j hj => absurd hj (Nat.not_lt_zero j)⟩

/-- A width of a few instructions. -/
theorem toNat_four_mul {n : Nat} (hn : n < 2 ^ 30) :
    (4#32 * BitVec.ofNat 32 n : Word).toNat = 4 * n := by
  rw [BitVec.toNat_mul, BitVec.toNat_ofNat, BitVec.toNat_ofNat, Nat.mod_eq_of_lt (by omega : n < _),
    Nat.mod_eq_of_lt (by omega)]

section
variable {code : Nat → Byte} {len off : Word} (hlen : Sized len) {targets : Targets} {d : Dec}
  {u : Dec × Word} (ho : off.toNat ≤ len.toNat)
include hlen ho

theorem tryFusePrologue_unit (h4 : off.toNat + 4 ≤ len.toNat)
    (hf : tryFusePrologue code len off targets d = some u) : ∃ n, Unit len targets off u n := by
  unfold tryFusePrologue at hf
  simp only at hf
  split at hf
  · cases hf
  split at hf
  · cases hf
  split at hf
  · cases hf
  split at hf
  · cases hf
  rename_i rmask _
  cases hf
  have h4' : (off + 4#32).toNat = off.toNat + 4 := toNat_add_four hlen ho
  obtain ⟨h1, h2, h3⟩ := prologueSaves_spec code hlen targets 13 (off + 4#32)
    (by rw [h4']; exact h4)
  rw [h4'] at h2
  generalize (prologueSaves code len targets 13 (off + 4#32)).length = n at h1 h2 h3
  refine ⟨n + 1, Nat.succ_pos n, ?_, by omega, ?_, ?_⟩
  · show (4#32 * (1#32 + BitVec.ofNat 32 n)).toNat = 4 * (n + 1)
    rw [show (1#32 + BitVec.ofNat 32 n : Word) = BitVec.ofNat 32 (n + 1) by
      rw [Nat.add_comm, BitVec.ofNat_add]]
    exact toNat_four_mul (by omega)
  · exact le_trans (show (opWords RISCV_OP_PROLOGUE).toNat ≤ 1 by decide) (Nat.succ_pos n)
  · intro j hj hjn
    obtain ⟨i, rfl⟩ : ∃ i, j = i + 1 := ⟨j - 1, by omega⟩
    rw [← slot_succ]
    exact h3 i (by omega)

theorem tryFuseEpilogue_unit (hf : tryFuseEpilogue code len off targets d = some u) :
    ∃ n, Unit len targets off u n := by
  have htop := hlen.top
  obtain ⟨h1, h2, h3⟩ := epilogueLoads_spec code hlen off targets 13 off ho
  unfold tryFuseEpilogue at hf
  simp only at hf
  generalize epilogueLoads code len off targets 13 off = loads at h1 h2 h3 hf
  have hslot : off + 4#32 * BitVec.ofNat 32 loads.length = slot off loads.length := by
    unfold slot
    rw [BitVec.ofNat_mul]
  have ho' : (slot off loads.length).toNat = off.toNat + 4 * loads.length :=
    toNat_slot (by omega)
  rw [hslot] at hf
  split at hf
  · cases hf
  rename_i hfit
  rw [not_or, BitVec.not_lt, BitVec.le_def, toNat_add_eight hlen (by omega), ho'] at hfit
  split at hf
  · cases hf
  rename_i htgt
  rw [not_or, Bool.not_eq_true, Bool.not_eq_true] at htgt
  split at hf
  · cases hf
  split at hf
  · cases hf
  split at hf
  · cases hf
  split at hf
  · cases hf
  cases hf
  have hpos : 0 < loads.length := List.length_pos_iff.2 hfit.1
  refine ⟨loads.length + 2, by omega, ?_, by omega, ?_, ?_⟩
  · show (slot off loads.length + 8#32 - off).toNat = _
    rw [BitVec.toNat_sub_of_le (by
      rw [BitVec.le_def, toNat_add_eight hlen (by omega), ho']
      omega), toNat_add_eight hlen (by omega), ho']
    omega
  · exact le_trans (show (opWords RISCV_OP_EPILOGUE).toNat ≤ 1 by decide) (by omega)
  · intro j hj hjn
    rcases Nat.lt_or_ge j loads.length with hlt | hge
    · refine h3 j hlt fun hc => ?_
      have hto := congrArg BitVec.toNat hc
      rw [toNat_slot (by omega)] at hto
      omega
    · rcases Nat.lt_or_ge loads.length j with hgt | hle
      · rw [show j = loads.length + 1 by omega, ← slot_succ]
        have hsucc : slot (off + 4#32) loads.length = slot off loads.length + 4#32 := by
          unfold slot
          rw [BitVec.add_assoc, BitVec.add_comm 4#32, ← BitVec.add_assoc]
        rw [hsucc]
        exact htgt.2
      · rw [show j = loads.length by omega]
        exact htgt.1

/-- A unit of two instructions. -/
theorem unit_two {d' : Dec} (h8 : ¬ off + 8#32 > len) (htgt : ¬ targets.has (off + 4#32) = true) :
    Unit len targets off (d', 8#32) 2 := by
  rw [gt_iff_lt, BitVec.not_lt, BitVec.le_def, toNat_add_eight hlen ho] at h8
  refine ⟨by decide, rfl, by omega, opWords_le_two _, fun j hj hj2 => ?_⟩
  rw [show j = 1 by omega]
  exact Bool.eq_false_iff.2 htgt

theorem tryFuseLa_unit (hf : tryFuseLa code len off targets d = some u) :
    ∃ n, Unit len targets off u n := by
  unfold tryFuseLa at hf
  split at hf
  · cases hf
  rename_i h8
  split at hf
  · cases hf
  rename_i htgt
  refine ⟨2, ?_⟩
  simp only at hf
  split at hf
  · cases hf
  split at hf
  · cases hf
  split at hf
  · cases hf
  split at hf
  · cases hf
    exact unit_two hlen ho h8 htgt
  · split at hf
    · cases hf
      exact unit_two hlen ho h8 htgt
    · cases hf

theorem tryFusePair_unit (hf : tryFusePair code len off targets d = some u) :
    ∃ n, Unit len targets off u n := by
  unfold tryFusePair at hf
  split at hf
  · cases hf
  rename_i h8
  split at hf
  · cases hf
  rename_i htgt
  have htwo : ∀ d', Unit len targets off (d', 8#32) 2 := fun d' => unit_two hlen ho h8 htgt
  simp only at hf
  split at hf
  · cases hf
    exact ⟨2, htwo _⟩
  split at hf
  · cases hf
    exact ⟨2, htwo _⟩
  split at hf
  · split at hf
    · -- the vtable call takes a third instruction
      rename_i hv
      cases hf
      unfold isVcall at hv
      simp only [Bool.and_eq_true, decide_eq_true_eq, Bool.not_eq_true'] at hv
      obtain ⟨⟨h12, htgt'⟩, -⟩ := hv
      have htop := hlen.top
      rw [gt_iff_lt, BitVec.not_lt, BitVec.le_def, toNat_add_eight hlen ho] at h8
      have h12' : (off + 12#32).toNat = off.toNat + 12 := BitVec.toNat_add_of_lt (by simp; omega)
      rw [BitVec.le_def, h12'] at h12
      refine ⟨3, by decide, rfl, by omega, show (opWords RISCV_OP_VCALL).toNat ≤ 3 by decide,
        fun j hj hj3 => ?_⟩
      obtain rfl | rfl : j = 1 ∨ j = 2 := by omega
      · exact Bool.eq_false_iff.2 htgt
      · exact htgt'
    · cases hf
      exact ⟨2, htwo _⟩
  split at hf
  · cases hf
    exact ⟨2, htwo _⟩
  split at hf
  · cases hf
    exact ⟨2, htwo _⟩
  · cases hf

end

/-- The switch gives an instruction, and `MEMOP` for a custom-0 word only. -/
theorem decodeWord_op (w off : Word) :
    (decodeWord w off).op ≤ RISCV_OP_ILLEGAL ∨
      ((decodeWord w off).op = RISCV_OP_MEMOP ∧ (w.extractLsb' 0 7).toNat = CUSTOM0) := by
  have hload : ∀ f3 : BitVec 3, loadOp f3 ≤ RISCV_OP_ILLEGAL := by decide
  have hstore : ∀ f3 : BitVec 3, storeOp f3 ≤ RISCV_OP_ILLEGAL := by decide
  have hbranch : ∀ f3 : BitVec 3, branchOp f3 ≤ RISCV_OP_ILLEGAL := by decide
  have halu : ∀ f3 : BitVec 3, RISCV_OP_ADDI + f3.toNat ≤ RISCV_OP_ILLEGAL ∧
      RISCV_OP_MUL + f3.toNat ≤ RISCV_OP_ILLEGAL ∧
      RISCV_OP_ADD + f3.toNat ≤ RISCV_OP_ILLEGAL := by decide
  unfold decodeWord
  simp only
  split
  case h_1 =>
    left
    split
    · exact show RISCV_OP_SLLI ≤ RISCV_OP_ILLEGAL by decide
    · split
      · show (if _ then RISCV_OP_SRAI else RISCV_OP_SRLI) ≤ RISCV_OP_ILLEGAL
        split <;> decide
      · exact (halu _).1
  case h_2 =>
    left
    split
    · exact (halu _).2.1
    · split
      · show (if _ then RISCV_OP_SUB else RISCV_OP_SRA) ≤ RISCV_OP_ILLEGAL
        split <;> decide
      · exact (halu _).2.2
  case h_3 => exact Or.inl (hload _)
  case h_4 => exact Or.inl (hstore _)
  case h_5 => exact Or.inl (hbranch _)
  case h_6 => exact Or.inl (show RISCV_OP_JAL ≤ RISCV_OP_ILLEGAL by decide)
  case h_7 => exact Or.inl (show RISCV_OP_JALR ≤ RISCV_OP_ILLEGAL by decide)
  case h_8 => exact Or.inl (show RISCV_OP_LUI ≤ RISCV_OP_ILLEGAL by decide)
  case h_9 => exact Or.inl (show RISCV_OP_AUIPC ≤ RISCV_OP_ILLEGAL by decide)
  case h_10 _ hk =>
    split
    · exact Or.inr ⟨rfl, hk⟩
    · exact Or.inl (Nat.le_refl _)
  case h_11 =>
    left
    split
    · exact Nat.le_refl _
    · exact show RISCV_OP_NOP ≤ RISCV_OP_ILLEGAL by decide
  case h_12 =>
    left
    split
    · exact show RISCV_OP_ECALL ≤ RISCV_OP_ILLEGAL by decide
    · split
      · exact show RISCV_OP_EBREAK ≤ RISCV_OP_ILLEGAL by decide
      · exact Nat.le_refl _
  case h_13 => exact Or.inl (Nat.le_refl _)

/-- What `decode` leaves is an instruction, never a fused op. -/
theorem decode_op (code : Nat → Byte) (off : Word) :
    (decode code off).op ≤ RISCV_OP_ILLEGAL ∨ (decode code off).op = RISCV_OP_MEMOP := by
  unfold decode
  generalize wordAt code off = w
  unfold Dec.foldZero
  split
  · exact Or.inl (show RISCV_OP_NOP ≤ RISCV_OP_ILLEGAL by decide)
  · exact (decodeWord_op w off).imp_right And.left

theorem decode_width (code : Nat → Byte) (off : Word) : (decode code off).width = 4#32 := by
  unfold decode
  generalize wordAt code off = w
  have hword : (decodeWord w off).width = 4#32 := by
    unfold decodeWord
    simp only
    repeat' split
    all_goals rfl
  unfold Dec.foldZero
  split
  · exact hword
  · exact hword

/-- A lone `auipc` keeps its one word. -/
theorem foldAuipc_op (off : Word) (d : Dec) :
    (foldAuipc off d).op = d.op ∨ (foldAuipc off d).op = RISCV_OP_LI_LO ∨
      (foldAuipc off d).op = RISCV_OP_LI_HI := by
  unfold foldAuipc
  split
  · simp only
    split
    · exact Or.inr (Or.inl rfl)
    · split
      · exact Or.inr (Or.inr rfl)
      · exact Or.inl rfl
  · exact Or.inl rfl

/-- **Every step is a unit.** -/
theorem step_unit (code : Nat → Byte) {len off : Word} (hlen : Sized len) (targets : Targets)
    (d : Dec) (h4 : off.toNat + 4 ≤ len.toNat) :
    ∃ n, Unit len targets off (step code len off targets d) n := by
  have ho : off.toNat ≤ len.toNat := by omega
  unfold step
  split
  · rename_i hf
    exact tryFusePrologue_unit hlen ho h4 hf
  split
  · rename_i hf
    exact tryFuseEpilogue_unit hlen ho hf
  split
  · rename_i hf
    exact tryFuseLa_unit hlen ho hf
  split
  · rename_i hf
    exact tryFusePair_unit hlen ho hf
  · refine ⟨1, by decide, by rw [decode_width]; rfl, h4, ?_, fun j hj hj1 => by omega⟩
    have hne : ∀ op, (op = RISCV_OP_LW_BZ ∨ op = RISCV_OP_LBU_BZ) →
        (foldAuipc off (decode code off)).op ≠ op := by
      unfold RISCV_OP_LW_BZ RISCV_OP_LBU_BZ
      rintro op hop hc
      rcases foldAuipc_op off (decode code off) with hfold | hfold | hfold
      · rcases decode_op code off with hdec | hdec
        · unfold RISCV_OP_ILLEGAL at hdec
          omega
        · unfold RISCV_OP_MEMOP at hdec
          omega
      · unfold RISCV_OP_LI_LO at hfold
        omega
      · unfold RISCV_OP_LI_HI at hfold
        omega
    exact opWords_le_one (hne _ (Or.inl rfl)) (hne _ (Or.inr rfl))

/-! ## The walk over the units -/

/-- The state of the loops of `build_map` and of the emit pass: the offset, what the last `step`
left in `d`, and the op-word offset. -/
structure Cursor where
  off : Word
  d : Dec
  at_ : Word

/-- The unit that a cursor is at. -/
def Cursor.unit (code : Nat → Byte) (len : Word) (targets : Targets) (c : Cursor) : Dec × Word :=
  step code len c.off targets c.d

/-- Past the unit. -/
def Cursor.past (code : Nat → Byte) (len : Word) (targets : Targets) (c : Cursor) : Cursor :=
  ⟨c.off + (c.unit code len targets).2, (c.unit code len targets).1,
    c.at_ + opWords (c.unit code len targets).1.op⟩

/-- One iteration of either loop. -/
def walk (code : Nat → Byte) (len : Word) (targets : Targets) (c : Cursor) : Option Cursor :=
  if unitAt code len c.off then some (c.past code len targets) else none

/-- Where both loops start. -/
def Cursor.start : Cursor := ⟨0#32, .zero, 0#32⟩

/-- What both loops keep. -/
structure Cursor.Inv (len : Word) (c : Cursor) : Prop where
  mul : c.off.toNat % 4 = 0
  le : c.off.toNat ≤ len.toNat
  words : 4 * c.at_.toNat ≤ c.off.toNat

theorem start_inv (len : Word) : Cursor.start.Inv len :=
  ⟨rfl, Nat.zero_le _, Nat.zero_le _⟩

section
variable {len : Word} (hlen : Sized len) {c : Cursor} (hc : c.Inv len) (code : Nat → Byte)
  (targets : Targets)
include hlen hc

omit targets in
/-- There is a unit wherever the code goes on. -/
theorem unitAt_iff : unitAt code len c.off = true ↔ c.off.toNat < len.toNat := by
  obtain ⟨hm, hle, -⟩ := hc
  obtain ⟨hm', htop⟩ := hlen
  have h2 : (c.off + 2#32).toNat = c.off.toNat + 2 := BitVec.toNat_add_of_lt (by simp; omega)
  have h4 : (c.off + 4#32).toNat = c.off.toNat + 4 := BitVec.toNat_add_of_lt (by simp; omega)
  unfold unitAt
  rw [Bool.and_eq_true, decide_eq_true_eq, decide_eq_true_eq, BitVec.le_def, BitVec.le_def, h2]
  constructor
  · rintro ⟨h, -⟩
    omega
  · intro h
    refine ⟨by omega, ?_⟩
    split
    · rw [h4]
      omega
    · rw [h2]
      omega

/-- What one iteration does to the cursor. -/
theorem past_spec (hlt : c.off.toNat < len.toNat) :
    ∃ n, Unit len targets c.off (c.unit code len targets) n ∧
      (c.past code len targets).off.toNat = c.off.toNat + 4 * n ∧
      (c.past code len targets).at_.toNat =
        c.at_.toNat + (opWords (c.unit code len targets).1.op).toNat ∧
      (c.past code len targets).Inv len := by
  have hm := hlen.mul
  have hm' := hc.mul
  have hw := hc.words
  have htop := hlen.top
  obtain ⟨n, hu⟩ := step_unit code hlen targets c.d (by omega : c.off.toNat + 4 ≤ len.toNat)
  have hfits := hu.fits
  have hwords : (opWords (c.unit code len targets).1.op).toNat ≤ n := hu.words
  have hoff : (c.past code len targets).off.toNat = c.off.toNat + 4 * n := by
    have hwidth : (c.unit code len targets).2.toNat = 4 * n := hu.width
    show (c.off + (c.unit code len targets).2).toNat = _
    rw [BitVec.toNat_add_of_lt (by omega), hwidth]
  have hat : (c.past code len targets).at_.toNat =
      c.at_.toNat + (opWords (c.unit code len targets).1.op).toNat :=
    BitVec.toNat_add_of_lt (by omega)
  exact ⟨n, hu, hoff, hat, by omega, by omega, by omega⟩

theorem walk_some (hlt : c.off.toNat < len.toNat) :
    walk code len targets c = some (c.past code len targets) :=
  if_pos ((unitAt_iff hlen hc code).2 hlt)

theorem walk_none (hge : len.toNat ≤ c.off.toNat) : walk code len targets c = none :=
  if_neg fun h => absurd ((unitAt_iff hlen hc code).1 h) (by omega)

/-- A step of the walk is past the unit of a cursor inside the code. -/
theorem walk_inside {c' : Cursor} (hw : walk code len targets c = some c') :
    c.off.toNat < len.toNat ∧ c' = c.past code len targets := by
  unfold walk at hw
  split at hw
  · rename_i h
    cases hw
    exact ⟨(unitAt_iff hlen hc code).1 h, rfl⟩
  · cases hw

end

section
variable {len : Word} (hlen : Sized len) {c : Cursor} (hc : c.Inv len) {code : Nat → Byte}
  {targets : Targets}
include hlen hc

/-- **Along the walk** offsets grow by at least an instruction a step, and words at most as
instructions do. -/
theorem walk_run {n : Nat} {c' : Cursor} (hrun : iter (walk code len targets) n c = some c') :
    c'.Inv len ∧ c.off.toNat + 4 * n ≤ c'.off.toNat ∧ c.at_.toNat ≤ c'.at_.toNat ∧
      4 * (c'.at_.toNat - c.at_.toNat) ≤ c'.off.toNat - c.off.toNat := by
  induction n generalizing c with
  | zero =>
    cases hrun
    exact ⟨hc, by omega, by omega, by omega⟩
  | succ n ih =>
    cases hx : walk code len targets c with
    | none =>
      rw [iter, hx] at hrun
      cases hrun
    | some x =>
      rw [iter_succ hx] at hrun
      obtain ⟨hlt, rfl⟩ := walk_inside hlen hc code targets hx
      obtain ⟨k, hu, hoff, hat, hinv⟩ := past_spec hlen hc code targets hlt
      obtain ⟨h1, h2, h3, h4⟩ := ih hinv hrun
      have hpos := hu.pos
      have hwords : (opWords (c.unit code len targets).1.op).toNat ≤ k := hu.words
      exact ⟨h1, by omega, by omega, by omega⟩

/-- The walk gets to the unit that covers any offset. -/
theorem walk_covers {a : Nat} (ha : c.off.toNat ≤ a) (hlt : a < len.toNat) :
    ∃ n c', iter (walk code len targets) n c = some c' ∧ c'.off.toNat ≤ a ∧
      a < (c'.past code len targets).off.toNat := by
  induction hm : len.toNat - c.off.toNat using Nat.strong_induction_on generalizing c with
  | _ m ih =>
    have hlt' : c.off.toNat < len.toNat := by omega
    obtain ⟨k, hu, hoff, -, hinv⟩ := past_spec hlen hc code targets hlt'
    have hpos := hu.pos
    by_cases hin : a < (c.past code len targets).off.toNat
    · exact ⟨0, c, rfl, ha, hin⟩
    · obtain ⟨n, c', hrun, h1, h2⟩ := ih (len.toNat - (c.past code len targets).off.toNat)
        (by omega) hinv (by omega) rfl
      exact ⟨n + 1, c', by rw [iter_succ (walk_some hlen hc code targets hlt')]; exact hrun, h1, h2⟩

end

/-! ## The passes -/

/-- Two branches of one length. -/
theorem ite_length {P : Prop} [Decidable P] {a b : List Word} {n : Nat} (ha : a.length = n)
    (hb : b.length = n) : (if P then a else b).length = n := by
  split
  · exact ha
  · exact hb

/-- `emit` writes as many words as `op_words` counts. -/
theorem emit_length (at_ : Word) (d : Dec) (map : Nat → Word) (len : Word) :
    (emit at_ d map len).length = (opWords d.op).toNat := by
  by_cases hnop : d.op = RISCV_OP_NOP
  · unfold emit
    rw [hnop]
    rfl
  · by_cases hbz : d.op = RISCV_OP_LW_BZ ∨ d.op = RISCV_OP_LBU_BZ
    · unfold emit
      rcases hbz with hop | hop <;> rw [hop] <;> rfl
    · have hone : (opWords d.op).toNat = 1 := by
        unfold opWords
        rw [if_neg hnop, if_neg hbz]
        rfl
      rw [hone]
      unfold emit
      simp only [if_neg hnop, if_neg hbz]
      -- every other op is one word
      repeat' first | rfl | refine ite_length rfl ?_

/-- **Pass 1**: the map holds the op-word offset of every unit, and nothing else. -/
theorem buildMapFrom_spec (code : Nat → Byte) {len : Word} (hlen : Sized len) (targets : Targets) :
    ∀ (fuel : Nat) (c : Cursor) (map : Nat → Word), c.Inv len →
      len.toNat - c.off.toNat + 4 ≤ 4 * fuel →
      ∃ map' e n, buildMapFrom code len targets fuel c.off c.d map c.at_ = some (map', e.at_) ∧
        iter (walk code len targets) n c = some e ∧ len.toNat ≤ e.off.toNat ∧
        (∀ k c', iter (walk code len targets) k c = some c' → c'.off.toNat < len.toNat →
          map' (c'.off >>> 1).toNat = c'.at_) ∧
        ∀ j, (∀ k c', iter (walk code len targets) k c = some c' → c'.off.toNat < len.toNat →
          (c'.off >>> 1).toNat ≠ j) → map' j = map j
  | 0, c, map, hc, hfuel => by omega
  | fuel + 1, c, map, hc, hfuel => by
    by_cases hlt : c.off.toNat < len.toNat
    · obtain ⟨k, hu, hoff, hat, hinv⟩ := past_spec hlen hc code targets hlt
      have hpos := hu.pos
      have hw := walk_some hlen hc code targets hlt
      obtain ⟨map', e, n, hmap, hrun, hend, hheads, hrest⟩ := buildMapFrom_spec code hlen targets fuel
        (c.past code len targets)
        (fun j => if j = (c.off >>> 1).toNat then c.at_ else map j) hinv (by omega)
      -- the units further on have other slots of the map
      have hother : ∀ k c', iter (walk code len targets) k (c.past code len targets) = some c' →
          (c'.off >>> 1).toNat ≠ (c.off >>> 1).toNat := by
        intro k c' hr
        obtain ⟨-, hle, -⟩ := walk_run hlen hinv hr
        rw [BitVec.toNat_ushiftRight, BitVec.toNat_ushiftRight, Nat.shiftRight_eq_div_pow,
          Nat.shiftRight_eq_div_pow]
        omega
      refine ⟨map', e, n + 1, ?_, by rw [iter_succ hw]; exact hrun, hend, ?_, ?_⟩
      · rw [buildMapFrom, if_pos ((unitAt_iff hlen hc code).2 hlt)]
        exact hmap
      · intro k c' hr hlt'
        cases k with
        | zero =>
          cases hr
          rw [hrest _ fun k c' hr _ => hother k c' hr, if_pos rfl]
        | succ k =>
          rw [iter_succ hw] at hr
          exact hheads k c' hr hlt'
      · intro j hj
        rw [hrest j fun k c' hr hlt' => hj (k + 1) c' (by rw [iter_succ hw]; exact hr) hlt',
          if_neg fun hc' => hj 0 c rfl hlt hc'.symm]
    · refine ⟨map, c, 0, ?_, rfl, by omega, fun k c' hr hlt' => ?_, fun j _ => rfl⟩
      · rw [buildMapFrom, if_neg fun h => hlt ((unitAt_iff hlen hc code).1 h)]
      · obtain ⟨-, hle, -⟩ := walk_run hlen hc hr
        omega

/-- **Pass 2**: the words of every unit stand at its op-word offset. -/
theorem emitFrom_spec (code : Nat → Byte) {len : Word} (hlen : Sized len) (targets : Targets)
    (map : Nat → Word) :
    ∀ (fuel : Nat) (c : Cursor), c.Inv len → len.toNat - c.off.toNat + 4 ≤ 4 * fuel →
      ∃ ws e n, emitFrom code len targets map fuel c.off c.d c.at_ = some ws ∧
        iter (walk code len targets) n c = some e ∧ len.toNat ≤ e.off.toNat ∧
        c.at_.toNat + ws.length = e.at_.toNat ∧
        ∀ k c', iter (walk code len targets) k c = some c' → c'.off.toNat < len.toNat →
          emit c'.at_ (c'.unit code len targets).1 map len <+:
            ws.drop (c'.at_.toNat - c.at_.toNat)
  | 0, c, hc, hfuel => by omega
  | fuel + 1, c, hc, hfuel => by
    by_cases hlt : c.off.toNat < len.toNat
    · obtain ⟨k, hu, hoff, hat, hinv⟩ := past_spec hlen hc code targets hlt
      have hpos := hu.pos
      have hw := walk_some hlen hc code targets hlt
      obtain ⟨ws, e, n, hemit, hrun, hend, hcount, hheads⟩ := emitFrom_spec code hlen targets map fuel
        (c.past code len targets) hinv (by omega)
      have hlen' := emit_length c.at_ (c.unit code len targets).1 map len
      have hnext : c.at_ + BitVec.ofNat 32 (emit c.at_ (c.unit code len targets).1 map len).length =
          (c.past code len targets).at_ := by
        rw [hlen', BitVec.ofNat_toNat, BitVec.setWidth_eq]
        rfl
      refine ⟨emit c.at_ (c.unit code len targets).1 map len ++ ws, e, n + 1, ?_,
        by rw [iter_succ hw]; exact hrun, hend, ?_, ?_⟩
      · rw [emitFrom, if_pos ((unitAt_iff hlen hc code).2 hlt)]
        show (emitFrom code len targets map fuel (c.past code len targets).off
          (c.past code len targets).d
          (c.at_ + BitVec.ofNat 32 (emit c.at_ (c.unit code len targets).1 map len).length)).map _ = _
        rw [hnext, hemit]
        rfl
      · rw [List.length_append, hlen']
        omega
      · intro k c' hr hlt'
        cases k with
        | zero =>
          cases hr
          rw [Nat.sub_self, List.drop_zero]
          exact List.prefix_append _ _
        | succ k =>
          rw [iter_succ hw] at hr
          obtain ⟨-, -, hle, -⟩ := walk_run hlen hinv hr
          have hdrop : c'.at_.toNat - c.at_.toNat =
              (emit c.at_ (c.unit code len targets).1 map len).length +
                (c'.at_.toNat - (c.past code len targets).at_.toNat) := by
            rw [hlen']
            omega
          rw [hdrop, ← List.drop_drop, List.drop_left]
          exact hheads k c' hr hlt'
    · refine ⟨[], c, 0, ?_, rfl, by omega, Nat.add_zero _, fun k c' hr hlt' => ?_⟩
      · rw [emitFrom, if_neg fun h => hlt ((unitAt_iff hlen hc code).1 h)]
      · obtain ⟨-, hle, -⟩ := walk_run hlen hc hr
        omega

/-! ## Targets -/

/-- The ops with a target: direct jumps and branches. -/
def Direct (op : Nat) : Prop := op = RISCV_OP_JAL ∨ (RISCV_OP_BEQ ≤ op ∧ op ≤ RISCV_OP_BGEU)

instance (op : Nat) : Decidable (Direct op) := inferInstanceAs (Decidable (_ ∨ _))

theorem mark_n (t : Targets) (a : Word) : (t.mark a).n = t.n := by
  unfold Targets.mark
  simp only
  split <;> rfl

theorem has_mark_of_has {t : Targets} {b : Word} (a : Word) (hb : t.has b = true) :
    (t.mark a).has b = true := by
  unfold Targets.mark
  simp only
  split
  · unfold Targets.has at hb ⊢
    simp only [Bool.and_eq_true] at hb ⊢
    refine ⟨hb.1, ?_⟩
    split
    · rfl
    · exact hb.2
  · exact hb

theorem has_mark (t : Targets) {a : Word} (ha : a / 4#32 < t.n) : (t.mark a).has a = true := by
  unfold Targets.mark Targets.has
  simp [ha]

/-- The scan of the code ends, and marks the target of every direct jump. -/
theorem collectCode_spec (code : Nat → Byte) {len : Word} (hlen : Sized len) :
    ∀ (fuel : Nat) (off : Word) (t : Targets), off.toNat ≤ len.toNat →
      len.toNat - off.toNat + 4 ≤ 4 * fuel →
      ∃ t', collectCode code len fuel off t = some t' ∧ t'.n = t.n ∧
        (∀ b, t.has b = true → t'.has b = true) ∧
        ∀ o : Word, off.toNat ≤ o.toNat → (o.toNat - off.toNat) % 4 = 0 →
          o.toNat + 4 ≤ len.toNat → Direct (decode code o).op →
          (decode code o).target / 4#32 < t.n → t'.has (decode code o).target = true
  | 0, off, t, ho, hfuel => by omega
  | fuel + 1, off, t, ho, hfuel => by
    have h4 := toNat_add_four hlen ho
    unfold collectCode
    by_cases hgo : off + 4#32 ≤ len
    · rw [if_pos hgo]
      rw [BitVec.le_def, h4] at hgo
      simp only
      generalize ht₁ : (if (decode code off).op = RISCV_OP_JAL ∨
        (RISCV_OP_BEQ ≤ (decode code off).op ∧ (decode code off).op ≤ RISCV_OP_BGEU)
        then t.mark (decode code off).target else t) = t₁
      have hn : t₁.n = t.n := by
        rw [← ht₁]
        split
        · exact mark_n _ _
        · rfl
      have hmono : ∀ b, t.has b = true → t₁.has b = true := by
        intro b hb
        rw [← ht₁]
        split
        · exact has_mark_of_has _ hb
        · exact hb
      obtain ⟨t', hrun, hn', hmono', hall⟩ := collectCode_spec code hlen fuel (off + 4#32) t₁
        (by omega) (by omega)
      refine ⟨t', hrun, hn'.trans hn, fun b hb => hmono' b (hmono b hb), ?_⟩
      intro o hge hmod hfit hop hin
      by_cases heq : o.toNat = off.toNat
      · have hoo : o = off := BitVec.eq_of_toNat_eq heq
        subst hoo
        refine hmono' _ ?_
        unfold Direct at hop
        rw [← ht₁, if_pos hop]
        exact has_mark t hin
      · exact hall o (by omega) (by omega) hfit hop (by rw [hn]; exact hin)
    · rw [if_neg hgo]
      rw [BitVec.le_def, h4] at hgo
      exact ⟨t, rfl, rfl, fun b hb => hb, fun o h1 h2 h3 => by omega⟩

theorem foldl_mark (ext : List Word) (t : Targets) :
    (ext.foldl .mark t).n = t.n ∧ (∀ b, t.has b = true → (ext.foldl .mark t).has b = true) ∧
      ∀ a ∈ ext, a / 4#32 < t.n → (ext.foldl .mark t).has a = true := by
  induction ext generalizing t with
  | nil => exact ⟨rfl, fun b hb => hb, fun a ha => by cases ha⟩
  | cons a ext ih =>
    obtain ⟨hn, hmono, hall⟩ := ih (t.mark a)
    refine ⟨hn.trans (mark_n t a), fun b hb => hmono b (has_mark_of_has a hb), ?_⟩
    intro b hb hin
    cases hb with
    | head => exact hmono a (has_mark t hin)
    | tail _ hb => exact hall b hb (by rw [mark_n]; exact hin)

/-- An address in the window has a slot. -/
theorem slot_lt {len a : Word} (hlen : Sized len) (ha : a.toNat < len.toNat) :
    a / 4#32 < (Targets.new len).n := by
  have hm := hlen.mul
  show a / 4#32 < len / 4#32
  rw [BitVec.lt_def, BitVec.toNat_udiv, BitVec.toNat_udiv, show (4#32).toNat = 4 from rfl]
  omega

/-- **The target set** holds the target of every direct jump in the code and every external
target that lies in the window. -/
theorem collectTargets_spec (code : Nat → Byte) {len : Word} (hlen : Sized len) (ext : List Word) :
    ∃ targets, collectTargets code len ext = some targets ∧
      (∀ o : Word, o.toNat % 4 = 0 → o.toNat + 4 ≤ len.toNat → Direct (decode code o).op →
        (decode code o).target.toNat < len.toNat → targets.has (decode code o).target = true) ∧
      ∀ a ∈ ext, a.toNat < len.toNat → targets.has a = true := by
  have hm := hlen.mul
  obtain ⟨t, hrun, hn, -, hall⟩ := collectCode_spec code hlen (loopFuel len) 0#32 (.new len)
    (Nat.zero_le _) (by unfold loopFuel; simp only [BitVec.toNat_ofNat]; omega)
  obtain ⟨-, hmono, hext⟩ := foldl_mark ext t
  refine ⟨ext.foldl .mark t, ?_, ?_, ?_⟩
  · unfold collectTargets
    rw [hrun]
    rfl
  · intro o hmod hfit hop hin
    exact hmono _ (hall o (Nat.zero_le _) hmod hfit hop (slot_lt hlen hin))
  · intro a ha hin
    exact hext a ha (by rw [hn]; exact slot_lt hlen hin)

/-! ## The layout -/

/-- A cursor at the start of a unit of the program. -/
structure Head (code : Nat → Byte) (len : Word) (targets : Targets) (c : Cursor) : Prop where
  reached : ∃ k, iter (walk code len targets) k .start = some c
  here : unitAt code len c.off = true

/-- The emitted words and the map describe one layout of the units. -/
structure Layout (code : Nat → Byte) (len : Word) (targets : Targets) (prog : Transcoded)
    (map : Nat → Word) : Prop where
  /-- The emit pass writes `n_ops` words, one after the other from index 0. -/
  count : prog.ops.length = prog.n_ops.toNat
  /-- The words of a unit stand where the map says. -/
  words : ∀ c, Head code len targets c →
    emit (map (c.off >>> 1).toNat) (c.unit code len targets).1 map len <+:
      prog.ops.drop (map (c.off >>> 1).toNat).toNat
  /-- No more words than instructions. -/
  short : ∀ c, Head code len targets c →
    4 * (emit (map (c.off >>> 1).toNat) (c.unit code len targets).1 map len).length ≤
      (c.unit code len targets).2.toNat
  /-- The halfwords inside a unit have no entry. -/
  interior : ∀ c, Head code len targets c → ∀ o : Word, c.off.toNat + 2 ≤ o.toNat →
    o.toNat < c.off.toNat + (c.unit code len targets).2.toNat → map (o >>> 1).toNat = TC_SENTINEL
  /-- Later units have later words. -/
  monotone : ∀ c c', Head code len targets c → Head code len targets c' →
    c.off.toNat ≤ c'.off.toNat → (map (c.off >>> 1).toNat).toNat ≤ (map (c'.off >>> 1).toNat).toNat

section
variable {code : Nat → Byte} {len : Word} (hlen : Sized len) {targets : Targets}
include hlen

theorem Head.inv {c : Cursor} (hh : Head code len targets c) :
    c.Inv len ∧ c.off.toNat < len.toNat := by
  obtain ⟨⟨k, hk⟩, hhere⟩ := hh
  have hinv := (walk_run hlen (start_inv len) hk).1
  exact ⟨hinv, (unitAt_iff hlen hinv code).1 hhere⟩

/-- One of two units is reached from the other. -/
theorem heads_ordered {c c' : Cursor} (hh : Head code len targets c)
    (hh' : Head code len targets c') :
    c = c' ∨ (∃ m, iter (walk code len targets) m (c.past code len targets) = some c') ∨
      ∃ m, iter (walk code len targets) m (c'.past code len targets) = some c := by
  have hnext : ∀ {c c' : Cursor} {k m}, Head code len targets c →
      iter (walk code len targets) k .start = some c →
      iter (walk code len targets) (k + (m + 1)) .start = some c' →
      iter (walk code len targets) m (c.past code len targets) = some c' := by
    intro c c' k m hh hk hk'
    obtain ⟨hinv, hlt⟩ := hh.inv hlen
    obtain ⟨y, hy, hrest⟩ := iter_split hk'
    rw [hk] at hy
    cases hy
    rwa [iter_succ (walk_some hlen hinv code targets hlt)] at hrest
  obtain ⟨k, hk⟩ := hh.reached
  obtain ⟨k', hk'⟩ := hh'.reached
  rcases Nat.lt_trichotomy k k' with hlt | rfl | hgt
  · obtain ⟨m, rfl⟩ : ∃ m, k' = k + (m + 1) := ⟨k' - k - 1, by omega⟩
    exact Or.inr (Or.inl ⟨m, hnext hh hk hk'⟩)
  · rw [hk] at hk'
    cases hk'
    exact Or.inl rfl
  · obtain ⟨m, rfl⟩ : ∃ m, k = k' + (m + 1) := ⟨k - k' - 1, by omega⟩
    exact Or.inr (Or.inr ⟨m, hnext hh' hk' hk⟩)

/-- A unit further on starts behind this one, with as many words between them as instructions at
most. -/
theorem heads_apart {c c' : Cursor} (hh : Head code len targets c) {m : Nat}
    (hm : iter (walk code len targets) m (c.past code len targets) = some c') :
    c.off.toNat + (c.unit code len targets).2.toNat ≤ c'.off.toNat ∧
      c.off.toNat < c'.off.toNat ∧ c.at_.toNat ≤ c'.at_.toNat ∧
      4 * (c'.at_.toNat - c.at_.toNat) ≤ c'.off.toNat - c.off.toNat := by
  obtain ⟨hinv, hlt⟩ := hh.inv hlen
  obtain ⟨n, hu, hoff, hat, hinv'⟩ := past_spec hlen hinv code targets hlt
  obtain ⟨-, h1, h2, h3⟩ := walk_run hlen hinv' hm
  have hwords : (opWords (c.unit code len targets).1.op).toNat ≤ n := hu.words
  have hwidth : (c.unit code len targets).2.toNat = 4 * n := hu.width
  have hpos := hu.pos
  exact ⟨by omega, by omega, by omega, by omega⟩

end

/-- What `build_map` and the emit pass compute, read off the walk. -/
theorem transcodeEx_spec (code : Nat → Byte) {len : Word} (hlen : Sized len) (ext : List Word) :
    ∃ targets map prog, collectTargets code len ext = some targets ∧
      transcodeMapEx code len ext = some (map, prog.n_ops) ∧
      transcodeEx code len ext = some prog ∧ prog.ops.length = prog.n_ops.toNat ∧
      (∀ c, Head code len targets c → map (c.off >>> 1).toNat = c.at_ ∧
        emit c.at_ (c.unit code len targets).1 map len <+: prog.ops.drop c.at_.toNat) ∧
      ∀ j, (∀ c, Head code len targets c → (c.off >>> 1).toNat ≠ j) → map j = TC_SENTINEL := by
  have hm := hlen.mul
  obtain ⟨targets, htargets, -⟩ := collectTargets_spec code hlen ext
  have hfuel : len.toNat - Cursor.start.off.toNat + 4 ≤ 4 * loopFuel len := by
    show len.toNat - 0 + 4 ≤ 4 * (len.toNat / 4 + 2)
    omega
  obtain ⟨map, e, n, hmap, hrun, hend, hheads, hrest⟩ := buildMapFrom_spec code hlen targets
    (loopFuel len) .start (fun _ => TC_SENTINEL) (start_inv len) hfuel
  obtain ⟨ws, e', n', hemit, hrun', hend', hcount, hwords⟩ := emitFrom_spec code hlen targets map
    (loopFuel len) .start (start_inv len) hfuel
  -- both passes end at the end of the walk
  have hee : e' = e := by
    have hinv := (walk_run hlen (start_inv len) hrun).1
    have hinv' := (walk_run hlen (start_inv len) hrun').1
    have hstuck : ∀ {x y : Cursor} {k}, x.Inv len → len.toNat ≤ x.off.toNat →
        iter (walk code len targets) (k + 1) x ≠ some y := by
      intro x y k hx hge h
      rw [iter, walk_none hlen hx code targets hge] at h
      cases h
    rcases Nat.lt_trichotomy n n' with hlt | rfl | hgt
    · obtain ⟨i, rfl⟩ : ∃ i, n' = n + (i + 1) := ⟨n' - n - 1, by omega⟩
      obtain ⟨y, hy, hr⟩ := iter_split hrun'
      rw [hrun] at hy
      cases hy
      exact absurd hr (hstuck hinv hend)
    · rw [hrun] at hrun'
      cases hrun'
      rfl
    · obtain ⟨i, rfl⟩ : ∃ i, n = n' + (i + 1) := ⟨n - n' - 1, by omega⟩
      obtain ⟨y, hy, hr⟩ := iter_split hrun
      rw [hrun'] at hy
      cases hy
      exact absurd hr (hstuck hinv' hend')
  subst hee
  have hbuild : buildMap code len targets = some (map, e'.at_) := hmap
  refine ⟨targets, map, ⟨ws, e'.at_, e'.at_ * 4#32⟩, htargets, ?_, ?_, ?_, ?_, ?_⟩
  · unfold transcodeMapEx
    rw [htargets]
    exact hbuild
  · unfold transcodeEx
    rw [htargets]
    simp only
    rw [hbuild]
    exact congrArg (Option.map fun ops => Transcoded.mk ops e'.at_ (e'.at_ * 4#32)) hemit
  · have hzero : Cursor.start.at_.toNat = 0 := rfl
    show ws.length = e'.at_.toNat
    omega
  · intro c hh
    obtain ⟨hinv, hlt⟩ := hh.inv hlen
    obtain ⟨k, hk⟩ := hh.reached
    have hpre := hwords k c hk hlt
    rw [show c.at_.toNat - Cursor.start.at_.toNat = c.at_.toNat from Nat.sub_zero _] at hpre
    exact ⟨hheads k c hk hlt, hpre⟩
  · intro j hj
    exact hrest j fun k c hk hlt =>
      hj c ⟨⟨k, hk⟩, (unitAt_iff hlen (walk_run hlen (start_inv len) hk).1 code).2 hlt⟩

/-- **The two passes lay out the program identically.** -/
theorem transcodeEx_layout (code : Nat → Byte) {len : Word} (hlen : Sized len) (ext : List Word) :
    ∃ targets map prog, collectTargets code len ext = some targets ∧
      transcodeMapEx code len ext = some (map, prog.n_ops) ∧
      transcodeEx code len ext = some prog ∧ Layout code len targets prog map := by
  obtain ⟨targets, map, prog, htargets, hmap, hprog, hcount, hheads, hrest⟩ :=
    transcodeEx_spec code hlen ext
  refine ⟨targets, map, prog, htargets, hmap, hprog, hcount, ?_, ?_, ?_, ?_⟩
  · intro c hh
    rw [(hheads c hh).1]
    exact (hheads c hh).2
  · intro c hh
    obtain ⟨hinv, hlt⟩ := hh.inv hlen
    obtain ⟨n, hu, -⟩ := past_spec hlen hinv code targets hlt
    have hwords : (opWords (c.unit code len targets).1.op).toNat ≤ n := hu.words
    have hwidth : (c.unit code len targets).2.toNat = 4 * n := hu.width
    rw [emit_length]
    omega
  · intro c hh o hge hlt
    refine hrest _ fun c' hh' heq => ?_
    obtain ⟨hinv, -⟩ := hh.inv hlen
    obtain ⟨hinv', -⟩ := hh'.inv hlen
    have hm := hinv.mul
    have hm' := hinv'.mul
    rw [BitVec.toNat_ushiftRight, BitVec.toNat_ushiftRight, Nat.shiftRight_eq_div_pow,
      Nat.shiftRight_eq_div_pow] at heq
    rcases heads_ordered hlen hh hh' with rfl | ⟨m, hr⟩ | ⟨m, hr⟩
    · omega
    · have := heads_apart hlen hh hr
      omega
    · have := heads_apart hlen hh' hr
      omega
  · intro c c' hh hh' hle
    rw [(hheads c hh).1, (hheads c' hh').1]
    rcases heads_ordered hlen hh hh' with rfl | ⟨m, hr⟩ | ⟨m, hr⟩
    · exact Nat.le_refl _
    · exact (heads_apart hlen hh hr).2.2.1
    · have := heads_apart hlen hh' hr
      omega

/-- `ADDI x1, x0, 5`. -/
theorem transcodeEx_layout_addi :
    ∃ targets map prog, collectTargets (fun i => [0x93, 0x00, 0x50, 0x00].getD i 0) 4#32 [] =
        some targets ∧
      transcodeMapEx (fun i => [0x93, 0x00, 0x50, 0x00].getD i 0) 4#32 [] = some (map, prog.n_ops) ∧
      transcodeEx (fun i => [0x93, 0x00, 0x50, 0x00].getD i 0) 4#32 [] = some prog ∧
      Layout (fun i => [0x93, 0x00, 0x50, 0x00].getD i 0) 4#32 targets prog map :=
  transcodeEx_layout (fun i => [0x93, 0x00, 0x50, 0x00].getD i 0) ⟨by decide, by decide⟩ []

/-- The scan for targets never leaves a window that ends at the last word of the address space. -/
theorem collectCode_wraps (code : Nat → Byte) (fuel : Nat) (off : Word) (t : Targets)
    (hoff : off.toNat % 4 = 0) : collectCode code 0xfffffffc#32 fuel off t = none := by
  induction fuel generalizing off t with
  | zero => rfl
  | succ fuel ih =>
    have hsum : (off + 4#32).toNat % 4 = 0 := by
      rw [BitVec.toNat_add]
      have : (4#32).toNat = 4 := rfl
      omega
    have hle : off + 4#32 ≤ 0xfffffffc#32 := by
      have hlt := (off + 4#32).isLt
      have htop : (0xfffffffc#32).toNat = 4294967292 := rfl
      rw [BitVec.le_def, htop]
      omega
    unfold collectCode
    rw [if_pos hle]
    exact ih _ _ hsum

theorem transcode_none {code : Nat → Byte} {len : Word} {ext : List Word}
    (hnone : collectTargets code len ext = none) :
    transcodeEx code len ext = none ∧ transcodeMapEx code len ext = none := by
  unfold transcodeEx transcodeMapEx
  rw [hnone]
  exact ⟨rfl, rfl⟩

theorem collectTargets_wraps (code : Nat → Byte) (ext : List Word) :
    collectTargets code 0xfffffffc#32 ext = none := by
  unfold collectTargets
  rw [collectCode_wraps _ _ 0#32 _ (by decide)]
  exact Option.map_none _

/-- With `2^32 - 4` bytes of code, `off + 4 <= len` holds of every offset, and `transcode_ex` never
returns. -/
theorem transcodeEx_wraps :
    (0xfffffffc#32).toNat % 4 = 0 ∧ transcodeEx (fun _ => 0x13#8) 0xfffffffc#32 [] = none ∧
      transcodeMapEx (fun _ => 0x13#8) 0xfffffffc#32 [] = none :=
  ⟨by decide, transcode_none (collectTargets_wraps _ _)⟩

end Purv.Transcode
