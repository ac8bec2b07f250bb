import Purv.Rvc

/-!
# The encodings that the interpreter accepts

* `Denotes`, `Legal` — the encodings of RV32IMC and Zifencei, with fences that ignore their
  register fields;
* `Overlooked` — the reserved forms that no decode arm looks for;
* `FenceRefused` — the fences that one refuses;
* `sort_word`, `sort_half` — every other encoding is defined, or undefined and refused;
* `riscvEmulatorLoop_accepts` — so these two kinds are all that the loop gets wrong.
-/

namespace Purv

open Bits Isa

variable {H : Type}

/-! ## The instruction set -/

/-- `i` is an encoding of the instruction `j`. -/
inductive Denotes : Insn → Instr → Prop where
  | word (j : Instr) : Denotes (.word (encode j)) j
  | fence (fields : BitVec 12) (rs1 rd : Reg) :
      Denotes (.word (encodeI fields rs1 0#3 rd 0x0f#7)) (.fence fields)
  | fenceI (fields : BitVec 12) (rs1 rd : Reg) :
      Denotes (.word (encodeI fields rs1 1#3 rd 0x0f#7)) (.fenceI fields)
  | half {c : Half} {j : Instr} (hc : expand c = some j) : Denotes (.half c) j

/-- The encoding is defined. -/
def Legal (i : Insn) : Prop := ∃ j, Denotes i j

/-- Reserved forms that are executed: `OP` and the immediate shifts with a `funct7` of no
operation, `JALR` with a `funct3`, `C.LWSP` into `x0`, `C.JR` through `x0`, and the compressed
shifts by 32 and more. -/
inductive Overlooked : Insn → Prop where
  | op {w : Word} (ho : w.extractLsb' 0 7 = 0x33#7) (h0 : w.extractLsb' 25 7 ≠ 0#7)
      (h1 : w.extractLsb' 25 7 ≠ 1#7)
      (h32 : w.extractLsb' 25 7 = 0x20#7 → w.extractLsb' 12 3 ≠ 0#3 ∧ w.extractLsb' 12 3 ≠ 5#3) :
      Overlooked (.word w)
  | slli {w : Word} (ho : w.extractLsb' 0 7 = 0x13#7) (hf : w.extractLsb' 12 3 = 1#3)
      (h0 : w.extractLsb' 25 7 ≠ 0#7) : Overlooked (.word w)
  | srxi {w : Word} (ho : w.extractLsb' 0 7 = 0x13#7) (hf : w.extractLsb' 12 3 = 5#3)
      (h0 : w.extractLsb' 25 7 ≠ 0#7) (h32 : w.extractLsb' 25 7 ≠ 0x20#7) : Overlooked (.word w)
  | jalr {w : Word} (ho : w.extractLsb' 0 7 = 0x67#7) (hf : w.extractLsb' 12 3 ≠ 0#3) :
      Overlooked (.word w)
  | lwsp {c : Half} (hq : c.extractLsb' 0 2 = 2#2) (hf : c.extractLsb' 13 3 = 2#3)
      (hr : c.extractLsb' 7 5 = 0#5) : Overlooked (.half c)
  | jr {c : Half} (hq : c.extractLsb' 0 2 = 2#2) (hf : c.extractLsb' 13 3 = 4#3)
      (hw : c.extractLsb' 12 1 = 0#1) (hr : c.extractLsb' 7 5 = 0#5)
      (hs : c.extractLsb' 2 5 = 0#5) : Overlooked (.half c)
  | slli32 {c : Half} (hq : c.extractLsb' 0 2 = 2#2) (hf : c.extractLsb' 13 3 = 0#3)
      (hw : c.extractLsb' 12 1 = 1#1) : Overlooked (.half c)
  | srxi32 {c : Half} (hq : c.extractLsb' 0 2 = 1#2) (hf : c.extractLsb' 13 3 = 4#3)
      (ho : c.extractLsb' 10 2 = 0#2 ∨ c.extractLsb' 10 2 = 1#2)
      (hw : c.extractLsb' 12 1 = 1#1) : Overlooked (.half c)

/-- A fence with a register field that is not zero. -/
inductive FenceRefused : Insn → Prop where
  | mk {w : Word} (ho : w.extractLsb' 0 7 = 0x0f#7)
      (hf : w.extractLsb' 12 3 = 0#3 ∨ w.extractLsb' 12 3 = 1#3)
      (hr : w.extractLsb' 7 5 ≠ 0#5 ∨ w.extractLsb' 15 5 ≠ 0#5) : FenceRefused (.word w)

/-! ## Words from their fields -/

theorem encodeR_fields (w : Word) :
    encodeR (w.extractLsb' 25 7) (w.extractLsb' 20 5) (w.extractLsb' 15 5) (w.extractLsb' 12 3)
      (w.extractLsb' 7 5) (w.extractLsb' 0 7) = w := by
  ext i hi
  unfold encodeR
  interval_cases i <;> simp [getElem_place, BitVec.getLsbD_eq_getElem]

/-- A field of a field. -/
theorem extract_extract {n : Nat} (w : BitVec n) {k len lo m : Nat} (h : lo + m ≤ len) :
    (w.extractLsb' k len).extractLsb' lo m = w.extractLsb' (k + lo) m := by
  ext i hi
  simp [Nat.add_assoc, show lo + i < len by omega]

theorem encodeI_fields (w : Word) :
    encodeI (w.extractLsb' 20 12) (w.extractLsb' 15 5) (w.extractLsb' 12 3) (w.extractLsb' 7 5)
      (w.extractLsb' 0 7) = w := by
  unfold encodeI
  rw [extract_extract w (by decide), extract_extract w (by decide)]
  exact encodeR_fields w

theorem encodeU_fields (w : Word) :
    encodeU (w.extractLsb' 12 20) (w.extractLsb' 7 5) (w.extractLsb' 0 7) = w := by
  unfold encodeU
  rw [extract_extract w (by decide), extract_extract w (by decide),
    extract_extract w (by decide), extract_extract w (by decide)]
  exact encodeR_fields w

/-- `imm[11:5]`, `imm[4:0]`. -/
def storeField (w : Word) : BitVec 12 := cat 12 (w.extractLsb' 25 7) (w.extractLsb' 7 5)

/-- `imm[12|11|10:5|4:1]`. -/
def branchField (w : Word) : BitVec 12 :=
  cat 12 (w.extractLsb' 31 1) (cat 11 (w.extractLsb' 7 1)
    (cat 10 (w.extractLsb' 25 6) (w.extractLsb' 8 4)))

/-- `imm[20|19:12|11|10:1]`. -/
def jumpField (w : Word) : BitVec 20 :=
  cat 20 (w.extractLsb' 31 1) (cat 19 (w.extractLsb' 12 8)
    (cat 11 (w.extractLsb' 20 1) (w.extractLsb' 21 10)))

theorem encodeS_fields (w : Word) :
    encodeS (storeField w) (w.extractLsb' 20 5) (w.extractLsb' 15 5) (w.extractLsb' 12 3)
      (w.extractLsb' 0 7) = w := by
  ext i hi
  unfold encodeS encodeR storeField
  interval_cases i <;> simp [getElem_place, getElem_cat, BitVec.getLsbD_eq_getElem]

theorem encodeB_fields (w : Word) :
    encodeB (branchField w) (w.extractLsb' 20 5) (w.extractLsb' 15 5) (w.extractLsb' 12 3)
      (w.extractLsb' 0 7) = w := by
  ext i hi
  unfold encodeB encodeR branchField
  interval_cases i <;> simp [getElem_place, getElem_cat, BitVec.getLsbD_eq_getElem]

theorem encodeJ_fields (w : Word) :
    encodeJ (jumpField w) (w.extractLsb' 7 5) (w.extractLsb' 0 7) = w := by
  ext i hi
  unfold encodeJ encodeR jumpField
  interval_cases i <;> simp [getElem_place, getElem_cat, BitVec.getLsbD_eq_getElem]

/-! ## Every encoding -/

/-- The opcode is one of the eleven, or the word goes to `illegal`. -/
theorem decode32_opcode (w : Word) :
    w.extractLsb' 0 7 ∈ [0x03#7, 0x0f#7, 0x13#7, 0x17#7, 0x23#7, 0x33#7, 0x37#7, 0x63#7, 0x67#7,
      0x6f#7, 0x73#7] ∨ ∀ x, decode32 x w = .illegal := by
  have hnat : ∀ k : Nat, (w.extractLsb' 0 7).toNat = k → w.extractLsb' 0 7 = BitVec.ofNat 7 k := by
    intro k hk
    rw [← hk, BitVec.ofNat_toNat, BitVec.setWidth_eq]
  by_cases hm : w.extractLsb' 0 7 ∈ [0x03#7, 0x0f#7, 0x13#7, 0x17#7, 0x23#7, 0x33#7, 0x37#7,
      0x63#7, 0x67#7, 0x6f#7, 0x73#7]
  · exact .inl hm
  · refine .inr fun x => ?_
    unfold decode32
    simp only
    split
    case h_12 => rfl
    all_goals
      rename_i hk
      rw [hnat _ hk] at hm
      exact absurd (by decide) hm

/-- What an encoding is to the interpreter. -/
inductive Sort32 (w : Word) : Prop where
  | overlooked (ho : Overlooked (.word w))
  | fence (hf : FenceRefused (.word w))
  | defined (j : Instr) (hj : encode j = w)
  | refused (hr : ∀ x, (decode32 x w).refused = true)

theorem sort_load {w : Word} (ho : w.extractLsb' 0 7 = 0x03#7) : Sort32 w := by
  have hw := encodeI_fields w
  rw [ho] at hw
  rcases three_bits (w.extractLsb' 12 3) with hf | hf | hf | hf | hf | hf | hf | hf
  all_goals rw [hf] at hw
  case inl => exact .defined (.load .b _ _ _) hw
  case inr.inl => exact .defined (.load .h _ _ _) hw
  case inr.inr.inl => exact .defined (.load .w _ _ _) hw
  case inr.inr.inr.inr.inl => exact .defined (.load .bu _ _ _) hw
  case inr.inr.inr.inr.inr.inl => exact .defined (.load .hu _ _ _) hw
  all_goals
    refine .refused fun x => ?_
    unfold decode32
    simp only [ho, hf]
    rfl

theorem sort_store {w : Word} (ho : w.extractLsb' 0 7 = 0x23#7) : Sort32 w := by
  have hw := encodeS_fields w
  rw [ho] at hw
  rcases three_bits (w.extractLsb' 12 3) with hf | hf | hf | hf | hf | hf | hf | hf
  all_goals rw [hf] at hw
  case inl => exact .defined (.store .b _ _ _) hw
  case inr.inl => exact .defined (.store .h _ _ _) hw
  case inr.inr.inl => exact .defined (.store .w _ _ _) hw
  all_goals
    refine .refused fun x => ?_
    unfold decode32
    simp only [ho, hf]
    rfl

theorem sort_branch {w : Word} (ho : w.extractLsb' 0 7 = 0x63#7) : Sort32 w := by
  have hw := encodeB_fields w
  rw [ho] at hw
  rcases three_bits (w.extractLsb' 12 3) with hf | hf | hf | hf | hf | hf | hf | hf
  all_goals rw [hf] at hw
  case inl => exact .defined (.branch .eq _ _ _) hw
  case inr.inl => exact .defined (.branch .ne _ _ _) hw
  case inr.inr.inr.inr.inl => exact .defined (.branch .lt _ _ _) hw
  case inr.inr.inr.inr.inr.inl => exact .defined (.branch .ge _ _ _) hw
  case inr.inr.inr.inr.inr.inr.inl => exact .defined (.branch .ltu _ _ _) hw
  case inr.inr.inr.inr.inr.inr.inr => exact .defined (.branch .geu _ _ _) hw
  all_goals
    refine .refused fun x => ?_
    unfold decode32
    simp only [ho, hf]
    rfl

theorem sort_opImm {w : Word} (ho : w.extractLsb' 0 7 = 0x13#7) : Sort32 w := by
  have hw := encodeI_fields w
  have hr := encodeR_fields w
  rw [ho] at hw hr
  rcases three_bits (w.extractLsb' 12 3) with hf | hf | hf | hf | hf | hf | hf | hf
  all_goals rw [hf] at hw hr
  · exact .defined (.opImm .addi _ _ _) hw
  · by_cases h0 : w.extractLsb' 25 7 = 0#7
    · rw [h0] at hr
      exact .defined (.shiftImm .slli _ _ _) hr
    · exact .overlooked (.slli ho hf h0)
  · exact .defined (.opImm .slti _ _ _) hw
  · exact .defined (.opImm .sltiu _ _ _) hw
  · exact .defined (.opImm .xori _ _ _) hw
  · by_cases h0 : w.extractLsb' 25 7 = 0#7
    · rw [h0] at hr
      exact .defined (.shiftImm .srli _ _ _) hr
    by_cases h32 : w.extractLsb' 25 7 = 0x20#7
    · rw [h32] at hr
      exact .defined (.shiftImm .srai _ _ _) hr
    · exact .overlooked (.srxi ho hf h0 h32)
  · exact .defined (.opImm .ori _ _ _) hw
  · exact .defined (.opImm .andi _ _ _) hw

theorem sort_op {w : Word} (ho : w.extractLsb' 0 7 = 0x33#7) : Sort32 w := by
  have hw := encodeR_fields w
  rw [ho] at hw
  by_cases h0 : w.extractLsb' 25 7 = 0#7
  · rw [h0] at hw
    rcases three_bits (w.extractLsb' 12 3) with hf | hf | hf | hf | hf | hf | hf | hf
    all_goals rw [hf] at hw
    · exact .defined (.op .add _ _ _) hw
    · exact .defined (.op .sll _ _ _) hw
    · exact .defined (.op .slt _ _ _) hw
    · exact .defined (.op .sltu _ _ _) hw
    · exact .defined (.op .xor _ _ _) hw
    · exact .defined (.op .srl _ _ _) hw
    · exact .defined (.op .or _ _ _) hw
    · exact .defined (.op .and _ _ _) hw
  by_cases h1 : w.extractLsb' 25 7 = 1#7
  · rw [h1] at hw
    rcases three_bits (w.extractLsb' 12 3) with hf | hf | hf | hf | hf | hf | hf | hf
    all_goals rw [hf] at hw
    · exact .defined (.mulDiv .mul _ _ _) hw
    · exact .defined (.mulDiv .mulh _ _ _) hw
    · exact .defined (.mulDiv .mulhsu _ _ _) hw
    · exact .defined (.mulDiv .mulhu _ _ _) hw
    · exact .defined (.mulDiv .div _ _ _) hw
    · exact .defined (.mulDiv .divu _ _ _) hw
    · exact .defined (.mulDiv .rem _ _ _) hw
    · exact .defined (.mulDiv .remu _ _ _) hw
  by_cases h32 : w.extractLsb' 25 7 = 0x20#7 ∧
      (w.extractLsb' 12 3 = 0#3 ∨ w.extractLsb' 12 3 = 5#3)
  · obtain ⟨h32, hf | hf⟩ := h32
    · rw [h32, hf] at hw
      exact .defined (.op .sub _ _ _) hw
    · rw [h32, hf] at hw
      exact .defined (.op .sra _ _ _) hw
  · refine .overlooked (.op ho h0 h1 fun h => ?_)
    exact ⟨fun hf => h32 ⟨h, .inl hf⟩, fun hf => h32 ⟨h, .inr hf⟩⟩

theorem sort_jalr {w : Word} (ho : w.extractLsb' 0 7 = 0x67#7) : Sort32 w := by
  have hw := encodeI_fields w
  rw [ho] at hw
  by_cases hf : w.extractLsb' 12 3 = 0#3
  · rw [hf] at hw
    exact .defined (.jalr _ _ _) hw
  · exact .overlooked (.jalr ho hf)

theorem decode32_fence {w : Word} (ho : w.extractLsb' 0 7 = 0x0f#7) (x : Reg → Word) :
    decode32 x w = if w.extractLsb' 7 5 ≠ 0#5 ∨ w.extractLsb' 15 5 ≠ 0#5 ∨
      (w.extractLsb' 12 3 ≠ 0#3 ∧ w.extractLsb' 12 3 ≠ 1#3) then .illegal else .done := by
  unfold decode32
  simp only [ho]
  rfl

theorem sort_fence {w : Word} (ho : w.extractLsb' 0 7 = 0x0f#7) : Sort32 w := by
  have hw := encodeI_fields w
  rw [ho] at hw
  by_cases hf : w.extractLsb' 12 3 = 0#3 ∨ w.extractLsb' 12 3 = 1#3
  · by_cases hr : w.extractLsb' 7 5 = 0#5 ∧ w.extractLsb' 15 5 = 0#5
    · rw [hr.1, hr.2] at hw
      rcases hf with hf | hf
      · rw [hf] at hw
        exact .defined (.fence _) hw
      · rw [hf] at hw
        exact .defined (.fenceI _) hw
    · exact .fence ⟨ho, hf, not_and_or.mp hr⟩
  · refine .refused fun x => ?_
    rw [decode32_fence ho, if_pos (Or.inr (Or.inr (not_or.mp hf)))]
    rfl

theorem sort_system {w : Word} (ho : w.extractLsb' 0 7 = 0x73#7) : Sort32 w := by
  have hw := encodeI_fields w
  rw [ho] at hw
  by_cases hz : (w.extractLsb' 12 3 = 0#3 ∧ w.extractLsb' 7 5 = 0#5 ∧ w.extractLsb' 15 5 = 0#5) ∧
      (w.extractLsb' 20 12 = 0#12 ∨ w.extractLsb' 20 12 = 1#12)
  · obtain ⟨⟨hf, hd, hs⟩, hi⟩ := hz
    rw [hf, hd, hs] at hw
    rcases hi with hi | hi
    · rw [hi] at hw
      exact .defined .ecall hw
    · rw [hi] at hw
      exact .defined .ebreak hw
  · refine .refused fun x => ?_
    have hd : decode32 x w = .system (w.extractLsb' 7 5) (w.extractLsb' 15 5)
        (w.extractLsb' 12 3) (bits w 20 12) := by
      unfold decode32
      simp only [ho]
      rfl
    have h0 : bits w 20 12 = 0#32 ↔ w.extractLsb' 20 12 = 0#12 := by
      unfold bits
      bv_omega
    have h1 : bits w 20 12 = 1#32 ↔ w.extractLsb' 20 12 = 1#12 := by
      unfold bits
      bv_omega
    rw [hd, Action.refused, Bool.not_eq_true']
    apply Bool.eq_false_iff.mpr
    intro hs
    simp only [Bool.and_eq_true, Bool.or_eq_true, beq_iff_eq, h0, h1] at hs
    obtain ⟨⟨⟨hf, hd⟩, hs⟩, hi⟩ := hs
    exact hz ⟨⟨hf, hd, hs⟩, hi⟩

/-- **Every word is of one sort.** -/
theorem sort_word (w : Word) : Sort32 w := by
  rcases decode32_opcode w with ho | hi
  · simp only [List.mem_cons, List.not_mem_nil, or_false] at ho
    rcases ho with ho | ho | ho | ho | ho | ho | ho | ho | ho | ho | ho
    · exact sort_load ho
    · exact sort_fence ho
    · exact sort_opImm ho
    · exact .defined (.auipc _ _) (by rw [encode, ← ho, encodeU_fields])
    · exact sort_store ho
    · exact sort_op ho
    · exact .defined (.lui _ _) (by rw [encode, ← ho, encodeU_fields])
    · exact sort_branch ho
    · exact sort_jalr ho
    · exact .defined (.jal _ _) (by rw [encode, ← ho, encodeJ_fields])
    · exact sort_system ho
  · exact .refused fun x => by rw [hi x]; rfl

/-- What a halfword is to the interpreter. -/
inductive Sort16 (c : Half) : Prop where
  | overlooked (ho : Overlooked (.half c))
  | defined (j : Instr) (hj : expand c = some j)
  | refused (hn : expand c = none) (hr : ∀ x, decode16 x c = .illegal)

theorem sort_defined {c : Half} (h : ∃ j, expand c = some j) : Sort16 c := by
  obtain ⟨j, hj⟩ := h
  exact .defined j hj

theorem sort_unimplemented {c : Half} (hn : expand c = none) (hu : Unimplemented c) : Sort16 c :=
  .refused hn (decode16_unimplemented hu)

theorem sort_addi4spn {c : Half} (hq : c.extractLsb' 0 2 = 0#2) (hf : c.extractLsb' 13 3 = 0#3) :
    Sort16 c := by
  have he : expand c = if rvcAddi4spn c = 0#12 then none
      else some (.opImm .addi (popular (c.extractLsb' 2 3)) 2#5 (rvcAddi4spn c)) := by
    unfold expand
    simp only [hq, hf]
    rfl
  by_cases hz : rvcAddi4spn c = 0#12
  · exact sort_unimplemented (he.trans (if_pos hz)) (.addi4spn hq hf hz)
  · exact .defined _ (he.trans (if_neg hz))

theorem sort_lui {c : Half} (hq : c.extractLsb' 0 2 = 1#2) (hf : c.extractLsb' 13 3 = 3#3) :
    Sort16 c := by
  have he : expand c = if c.extractLsb' 7 5 = 2#5 then
      if rvcAddi16sp c = 0#10 then none
      else some (.opImm .addi 2#5 2#5 ((rvcAddi16sp c).signExtend 12))
    else if rvcImm6 c = 0#6 then none
    else some (.lui (c.extractLsb' 7 5) ((rvcImm6 c).signExtend 20)) := by
    unfold expand
    simp only [hq, hf]
    rfl
  by_cases hr : c.extractLsb' 7 5 = 2#5
  · rw [if_pos hr] at he
    by_cases hz : rvcAddi16sp c = 0#10
    · exact sort_unimplemented (he.trans (if_pos hz)) (.addi16sp hq hf hr hz)
    · exact .defined _ (he.trans (if_neg hz))
  · rw [if_neg hr] at he
    by_cases hz : rvcImm6 c = 0#6
    · exact sort_unimplemented (he.trans (if_pos hz)) (.lui hq hf hr hz)
    · exact .defined _ (he.trans (if_neg hz))

theorem bit_one {f : BitVec 1} (hf : f ≠ 0#1) : f = 1#1 := by
  revert f
  decide

theorem sort_miscAlu {c : Half} (hq : c.extractLsb' 0 2 = 1#2) (hf : c.extractLsb' 13 3 = 4#3) :
    Sort16 c := by
  have he : expand c = expandMiscAlu c := by
    unfold expand
    simp only [hq, hf]
    rfl
  unfold expandMiscAlu at he
  simp only at he
  have hsel : ∀ k : BitVec 2, (c.extractLsb' 10 2).toNat = k.toNat → c.extractLsb' 10 2 = k :=
    fun k => BitVec.eq_of_toNat_eq
  by_cases hw : c.extractLsb' 12 1 = 0#1
  · simp only [if_pos hw] at he
    rcases two_bits (c.extractLsb' 10 2) with ho | ho | ho | ho
    all_goals simp only [ho] at he
    case inr.inr.inr =>
      rcases two_bits (c.extractLsb' 5 2) with hs | hs | hs | hs
      all_goals
        simp only [hs] at he
        exact .defined _ he
    all_goals exact .defined _ he
  · simp only [if_neg hw] at he
    rcases two_bits (c.extractLsb' 10 2) with ho | ho | ho | ho
    all_goals simp only [ho] at he
    · exact .overlooked (.srxi32 hq hf (.inl (hsel 0#2 ho)) (bit_one hw))
    · exact .overlooked (.srxi32 hq hf (.inr (hsel 1#2 ho)) (bit_one hw))
    · exact .defined _ he
    · exact sort_unimplemented he (.rv64 hq hf (hsel 3#2 ho) (bit_one hw))

theorem sort_jrMvAdd {c : Half} (hq : c.extractLsb' 0 2 = 2#2) (hf : c.extractLsb' 13 3 = 4#3) :
    Sort16 c := by
  have he : expand c = expandJrMvAdd c := by
    unfold expand
    simp only [hq, hf]
    rfl
  unfold expandJrMvAdd at he
  simp only at he
  split at he
  · rename_i hw
    split at he
    · rename_i hs
      split at he
      · rename_i hr
        exact .overlooked (.jr hq hf hw hr hs)
      · exact .defined _ he
    · exact .defined _ he
  · split at he
    · split at he
      · exact .defined _ he
      · exact .defined _ he
    · exact .defined _ he

theorem sort_lwsp {c : Half} (hq : c.extractLsb' 0 2 = 2#2) (hf : c.extractLsb' 13 3 = 2#3) :
    Sort16 c := by
  by_cases hr : c.extractLsb' 7 5 = 0#5
  · exact .overlooked (.lwsp hq hf hr)
  · refine .defined (.load .w (c.extractLsb' 7 5) 2#5 (rvcLwsp c)) ?_
    unfold expand
    simp only [hq, hf]
    exact if_neg hr

theorem sort_slli {c : Half} (hq : c.extractLsb' 0 2 = 2#2) (hf : c.extractLsb' 13 3 = 0#3) :
    Sort16 c := by
  by_cases hw : c.extractLsb' 12 1 = 0#1
  · refine .defined (.shiftImm .slli (c.extractLsb' 7 5) (c.extractLsb' 7 5)
      (c.extractLsb' 2 5)) ?_
    unfold expand
    simp only [hq, hf]
    exact if_pos hw
  · exact .overlooked (.slli32 hq hf (bit_one hw))

/-- **Every halfword is of one sort.** -/
theorem sort_half (c : Half) : Sort16 c := by
  have hq4 : ∀ k : BitVec 2, (c.extractLsb' 0 2).toNat = k.toNat → c.extractLsb' 0 2 = k :=
    fun k => BitVec.eq_of_toNat_eq
  rcases two_bits (c.extractLsb' 0 2) with hq | hq | hq | hq
  case inl =>
    have hq := hq4 0#2 hq
    rcases three_bits (c.extractLsb' 13 3) with hf | hf | hf | hf | hf | hf | hf | hf
    · exact sort_addi4spn hq hf
    case inr.inr.inl | inr.inr.inr.inr.inr.inr.inl =>
      apply sort_defined
      unfold expand
      simp only [hq, hf]
      exact ⟨_, rfl⟩
    all_goals
      refine .refused ?_ fun x => ?_
      · unfold expand
        simp only [hq, hf]
        rfl
      · unfold decode16
        simp only [hq, hf]
        rfl
  case inr.inl =>
    have hq := hq4 1#2 hq
    rcases three_bits (c.extractLsb' 13 3) with hf | hf | hf | hf | hf | hf | hf | hf
    case inr.inr.inr.inl => exact sort_lui hq hf
    case inr.inr.inr.inr.inl => exact sort_miscAlu hq hf
    all_goals
      apply sort_defined
      unfold expand
      simp only [hq, hf]
      exact ⟨_, rfl⟩
  case inr.inr.inl =>
    have hq := hq4 2#2 hq
    rcases three_bits (c.extractLsb' 13 3) with hf | hf | hf | hf | hf | hf | hf | hf
    · exact sort_slli hq hf
    case inr.inr.inl => exact sort_lwsp hq hf
    case inr.inr.inr.inr.inl => exact sort_jrMvAdd hq hf
    case inr.inr.inr.inr.inr.inr.inl =>
      apply sort_defined
      unfold expand
      simp only [hq, hf]
      exact ⟨_, rfl⟩
    all_goals
      refine .refused ?_ fun x => ?_
      · unfold expand
        simp only [hq, hf]
        rfl
      · unfold decode16
        simp only [hq, hf]
        rfl
  case inr.inr.inr =>
    have hq := hq4 3#2 hq
    rcases three_bits (c.extractLsb' 13 3) with hf | hf | hf | hf | hf | hf | hf | hf
    all_goals
      refine .refused ?_ fun x => ?_
      · unfold expand
        simp only [hq, hf]
        rfl
      · unfold decode16
        simp only [hq, hf]
        rfl

/-! ## What is legal -/

theorem encode_not_overlooked (j : Instr) : ¬ Overlooked (.word (encode j)) := by
  intro hv
  cases hv with
  | op ho h0 h1 h32 =>
    cases j with
    | op o rd rs1 rs2 => cases o <;> simp [encode, AluOp.funct7, AluOp.funct3] at h0 h32
    | mulDiv o rd rs1 rs2 => simp [encode] at h1
    | _ => simp [encode, encodeI, encodeS, encodeB, encodeU, encodeJ] at ho
  | slli ho hf h0 =>
    cases j with
    | opImm o rd rs1 imm => cases o <;> simp [encode, encodeI, ImmOp.op, AluOp.funct3] at hf
    | shiftImm o rd rs1 sh =>
      cases o <;> simp [encode, ShiftOp.op, AluOp.funct7, AluOp.funct3] at hf h0
    | _ => simp [encode, encodeI, encodeS, encodeB, encodeU, encodeJ] at ho
  | srxi ho hf h0 h32 =>
    cases j with
    | opImm o rd rs1 imm => cases o <;> simp [encode, encodeI, ImmOp.op, AluOp.funct3] at hf
    | shiftImm o rd rs1 sh =>
      cases o <;> simp [encode, ShiftOp.op, AluOp.funct7, AluOp.funct3] at hf h0 h32
    | _ => simp [encode, encodeI, encodeS, encodeB, encodeU, encodeJ] at ho
  | jalr ho hf =>
    cases j with
    | jalr rd rs1 imm => simp [encode, encodeI] at hf
    | _ => simp [encode, encodeI, encodeS, encodeB, encodeU, encodeJ] at ho

theorem fence_not_overlooked {w : Word} (ho : w.extractLsb' 0 7 = 0x0f#7) :
    ¬ Overlooked (.word w) := by
  intro hv
  cases hv with
  | op h => exact absurd (ho.symm.trans h) (by decide)
  | slli h => exact absurd (ho.symm.trans h) (by decide)
  | srxi h => exact absurd (ho.symm.trans h) (by decide)
  | jalr h => exact absurd (ho.symm.trans h) (by decide)

theorem half_not_overlooked {c : Half} {j : Instr} (hc : expand c = some j) :
    ¬ Overlooked (.half c) := by
  intro hv
  unfold expand at hc
  cases hv with
  | lwsp hq hf hr =>
    simp only [hq, hf, hr] at hc
    cases hc
  | jr hq hf hw hr hs =>
    simp only [hq, hf] at hc
    change expandJrMvAdd c = some j at hc
    unfold expandJrMvAdd at hc
    simp only [hw, hr, hs] at hc
    cases hc
  | slli32 hq hf hw =>
    simp only [hq, hf, hw] at hc
    cases hc
  | srxi32 hq hf ho hw =>
    simp only [hq, hf] at hc
    change expandMiscAlu c = some j at hc
    unfold expandMiscAlu at hc
    rcases ho with ho | ho
    all_goals
      simp only [ho, hw] at hc
      cases hc

/-- **The overlooked forms are not defined.** -/
theorem Overlooked.undefined {i : Insn} (hv : Overlooked i) : ¬ Legal i := by
  rintro ⟨j, hj⟩
  cases hj with
  | word => exact encode_not_overlooked j hv
  | fence fields rs1 rd => exact fence_not_overlooked (encodeR_op _ _ _ _ _ _) hv
  | fenceI fields rs1 rd => exact fence_not_overlooked (encodeR_op _ _ _ _ _ _) hv
  | half hc => exact half_not_overlooked hc hv

/-- **The refused fences are.** -/
theorem FenceRefused.denotes {i : Insn} (hv : FenceRefused i) :
    ∃ j, Denotes i j ∧ ∀ y, j.action y = .done := by
  cases hv with
  | @mk w ho hf hr =>
    have hw := encodeI_fields w
    rw [ho] at hw
    rcases hf with hf | hf
    · rw [hf] at hw
      rw [← hw]
      exact ⟨_, .fence _ _ _, fun _ => rfl⟩
    · rw [hf] at hw
      rw [← hw]
      exact ⟨_, .fenceI _ _ _, fun _ => rfl⟩

theorem FenceRefused.legal {i : Insn} (hv : FenceRefused i) : Legal i := by
  obtain ⟨j, hj, _⟩ := hv.denotes
  exact ⟨j, hj⟩

/-! ## What is executed -/

/-- The calls of the illegal handler. -/
def illegals (log : List (Call H)) : List (State H) :=
  log.filterMap fun
    | .trap .illegal s => some s
    | _ => none

theorem callback_illegals (h : Hooks H) (r : Run H) (op : MemOp) (a v : Word) :
    illegals (r.callback h op a v).1.log = illegals r.log := by
  unfold Run.callback
  split
  · rfl
  · simp [illegals]

theorem raise_illegals (h : Hooks H) (r : Run H) (pc inst : Word) {t : Trap}
    (ht : t ≠ .illegal) : illegals (r.raise h pc inst t).1.log = illegals r.log := by
  have hf : illegals (r.fault pc inst).log = illegals r.log := rfl
  rw [← hf]
  unfold Run.raise Run.trap
  cases t with
  | illegal => exact absurd rfl ht
  | ecall => cases he : h.ecall <;> simp [Hooks.handler, illegals, he]
  | ebreak => cases he : h.ebreak <;> simp [Hooks.handler, illegals, he]

theorem execLoad_illegals (h : Hooks H) (r : Run H) (rd : Reg) (a : Word) (f3 : BitVec 3) :
    illegals (execLoad h r rd a f3).log = illegals r.log := by
  unfold execLoad
  simp only
  split
  · rfl
  · split
    · rfl
    · exact callback_illegals h r .load a 0#32

theorem execStore_illegals (h : Hooks H) (r : Run H) (a b : Word) (f3 : BitVec 3) :
    illegals (execStore h r a b f3).log = illegals r.log := by
  unfold execStore
  split
  · rfl
  · exact callback_illegals h r .store a b

/-- The action body of an instruction calls no illegal handler. -/
theorem execute_illegals (h : Hooks H) (r : Run H) (pc width inst : Word) (j : Instr)
    (y : Reg → Word) :
    illegals (execute h r pc width inst (j.action y)).1.log = illegals r.log := by
  cases j with
  | load k rd rs1 imm =>
    have hk : ¬ (k.funct3 = 3#3 ∨ k.funct3 > 5#3) := by cases k <;> decide
    simp only [Instr.action, execute, if_neg hk]
    exact execLoad_illegals h r _ _ _
  | store k rs1 rs2 imm =>
    have hk : ¬ k.funct3 > 2#3 := by cases k <;> decide
    simp only [Instr.action, execute, if_neg hk]
    exact execStore_illegals h r _ _ _
  | branch k rs1 rs2 off =>
    simp only [Instr.action, execute, branchTaken_eval]
    cases k.eval (y rs1) (y rs2) <;> rfl
  | ecall => exact raise_illegals h r pc inst (by decide)
  | ebreak => exact raise_illegals h r pc inst (by decide)
  | _ => rfl

theorem execute_refused (h : Hooks H) (r : Run H) (pc width inst : Word) {a : Action}
    (ha : a.refused = true) : execute h r pc width inst a = r.raise h pc inst .illegal := by
  cases a with
  | load rd a imm f3 =>
    simp only [Action.refused, Bool.or_eq_true, beq_iff_eq, decide_eq_true_eq] at ha
    simp only [execute, if_pos ha]
  | store a b imm f3 =>
    simp only [Action.refused, decide_eq_true_eq] at ha
    simp only [execute, if_pos ha]
  | branch a b imm f3 =>
    simp only [Action.refused, Option.isNone_iff_eq_none] at ha
    simp only [execute, ha]
  | system rd rs1 f3 imm =>
    simp only [Action.refused, Bool.not_eq_true', Bool.eq_false_iff, ne_eq, Bool.and_eq_true,
      Bool.or_eq_true, beq_iff_eq] at ha
    simp only [execute]
    rw [if_neg fun hc => ha ⟨⟨⟨hc.1, hc.2.1⟩, hc.2.2.1⟩, .inl hc.2.2.2⟩,
      if_neg fun hc => ha ⟨⟨⟨hc.1, hc.2.1⟩, hc.2.2.1⟩, .inr hc.2.2.2⟩]
  | illegal => rfl
  | _ => cases ha

/-- An overlooked form ends as an instruction does, with no call. -/
theorem Overlooked.runs {i : Insn} (hv : Overlooked i) (h : Hooks H) (r : Run H) (pc : Word) :
    (oneInsn h r pc i).1.log = r.log ∧ (oneInsn h r pc i).2 ≠ .out := by
  unfold oneInsn Insn.decode
  cases hv with
  | op ho h0 h1 h32 =>
    simp only [decode32, ho, if_neg h1]
    exact ⟨rfl, fun he => by cases he⟩
  | slli ho hf h0 =>
    simp only [decode32, ho, hf]
    exact ⟨rfl, fun he => by cases he⟩
  | srxi ho hf h0 h32 =>
    simp only [decode32, ho, hf]
    exact ⟨rfl, fun he => by cases he⟩
  | jalr ho hf =>
    simp only [decode32, ho]
    exact ⟨rfl, fun he => by cases he⟩
  | lwsp hq hf hr =>
    simp only [decode16, hq, hf, hr]
    exact ⟨rfl, fun he => by cases he⟩
  | jr hq hf hw hr hs =>
    simp only [decode16, hq, hf]
    change (execute h r pc _ _ (decodeJrMvAdd r.s.x _)).1.log = r.log ∧
      (execute h r pc _ _ (decodeJrMvAdd r.s.x _)).2 ≠ .out
    simp only [decodeJrMvAdd, hw, hs]
    exact ⟨rfl, fun he => by cases he⟩
  | slli32 hq hf hw =>
    simp only [decode16, hq, hf]
    exact ⟨rfl, fun he => by cases he⟩
  | srxi32 hq hf ho hw =>
    simp only [decode16, hq, hf]
    change (execute h r pc _ _ (decodeMiscAlu r.s.x _)).1.log = r.log ∧
      (execute h r pc _ _ (decodeMiscAlu r.s.x _)).2 ≠ .out
    rcases ho with ho | ho
    all_goals
      simp only [decodeMiscAlu, ho]
      exact ⟨rfl, fun he => by cases he⟩

theorem FenceRefused.raises {i : Insn} (hv : FenceRefused i) (h : Hooks H) (r : Run H)
    (pc : Word) : oneInsn h r pc i = r.raise h pc i.inst .illegal := by
  cases hv with
  | mk ho hf hr =>
    unfold oneInsn Insn.decode
    simp only [decode32_fence ho]
    rw [if_pos (hr.imp id .inl)]
    rfl

/-! ## One iteration of the loop -/

/-- One iteration on the encoding `i` runs the action body of `j`, on some reading of the
registers, and calls no illegal handler. -/
structure Executes (h : Hooks H) (r : Run H) (i : Insn) (j : Instr) : Prop where
  runs : ∃ y, Reads r.s.x y ∧
    riscvEmulatorLoop h r 1 =
      landed r.s.pc i.width (execute h r r.s.pc i.width i.inst (j.action y))
  legal : illegals (riscvEmulatorLoop h r 1).r.log = illegals r.log

/-- One iteration on the encoding `i` does what the instruction set asks: a defined encoding
executes, any other is one call of the illegal handler and nothing else. -/
structure Accepts (h : Hooks H) (r : Run H) (i : Insn) : Prop where
  executes : ∀ j, Denotes i j → Executes h r i j
  refuses : ¬ Legal i →
    riscvEmulatorLoop h r 1 = landed r.s.pc i.width (r.raise h r.s.pc i.inst .illegal)

theorem landed_log (pc width : Word) (out : Run H × Next) :
    (landed pc width out).r.log = out.1.log := by
  rcases out with ⟨r, nx⟩
  cases nx <;> rfl

/-- A quiet end is no call of the illegal handler. -/
theorem landed_ne_raise {h : Hooks H} {r : Run H} {pc width inst : Word} {out : Run H × Next}
    (hlog : out.1.log = r.log) (hout : out.2 ≠ .out) :
    landed pc width out ≠ landed pc width (r.raise h pc inst .illegal) := by
  intro he
  cases hf : h.illegal with
  | none =>
    have hr : r.raise h pc inst .illegal = (r.fault pc inst, .out) := by
      simp [Run.raise, Run.trap, Hooks.handler, hf]
    have hstop : (landed pc width out).stop = .trap := by rw [he, hr]; rfl
    rcases out with ⟨q, nx⟩
    cases nx with
    | done => cases hstop
    | jump t => cases hstop
    | out => exact hout rfl
  | some f =>
    have hr : (r.raise h pc inst .illegal).1.log =
        r.log ++ [.trap .illegal (r.fault pc inst).s] := by
      simp [Run.raise, Run.trap, Hooks.handler, hf, Run.fault]
    have hl : r.log = r.log ++ [.trap .illegal (r.fault pc inst).s] := by
      rw [← hr, ← landed_log pc width, ← he, landed_log, hlog]
    have hlen := congrArg List.length hl
    simp at hlen

theorem executes_of {h : Hooks H} {r : Run H} {i : Insn} {j : Instr} {y : Reg → Word}
    (hone : riscvEmulatorLoop h r 1 = landed r.s.pc i.width (oneInsn h r r.s.pc i))
    (hy : Reads r.s.x y)
    (he : oneInsn h r r.s.pc i = execute h r r.s.pc i.width i.inst (j.action y)) :
    Executes h r i j := by
  rw [he] at hone
  refine ⟨⟨y, hy, hone⟩, ?_⟩
  rw [hone, landed_log]
  exact execute_illegals h r _ _ _ j y

theorem executes_word {h : Hooks H} {r : Run H} {w : Word} {j : Instr} (hw : encode j = w)
    (hone : riscvEmulatorLoop h r 1 = landed r.s.pc 4#32 (oneInsn h r r.s.pc (.word w))) :
    Executes h r (.word w) j := by
  refine executes_of hone (.refl _) ?_
  unfold oneInsn Insn.decode
  simp only [← hw, decode32_encode]

theorem executes_legal {h : Hooks H} {r : Run H} {i : Insn} {j : Instr} (hj : Denotes i j)
    (hv : ¬ FenceRefused i)
    (hone : riscvEmulatorLoop h r 1 = landed r.s.pc i.width (oneInsn h r r.s.pc i)) :
    Executes h r i j := by
  -- a fence that is not refused has zero in both fields
  have hzero : ∀ {fields rs1 f3 rd}, (f3 = 0#3 ∨ f3 = 1#3) →
      ¬ FenceRefused (.word (encodeI fields rs1 f3 rd 0x0f#7)) → rd = 0#5 ∧ rs1 = 0#5 := by
    intro fields rs1 f3 rd hf hv
    have hn := fun hr => hv ⟨encodeR_op _ _ _ _ _ _, by simpa [encodeI] using hf, hr⟩
    simp only [encodeI, encodeR_rd, encodeR_rs1] at hn
    exact ⟨by_contra fun hc => hn (.inl hc), by_contra fun hc => hn (.inr hc)⟩
  cases hj with
  | word => exact executes_word rfl hone
  | fence fields rs1 rd =>
    obtain ⟨rfl, rfl⟩ := hzero (.inl rfl) hv
    exact executes_word rfl hone
  | fenceI fields rs1 rd =>
    obtain ⟨rfl, rfl⟩ := hzero (.inr rfl) hv
    exact executes_word rfl hone
  | half hc =>
    obtain ⟨y, hy, he⟩ := execute_expand_reads h r r.s.pc 2#32 _ hc
    exact executes_of hone hy he

theorem refuses_undefined {h : Hooks H} {r : Run H} {i : Insn} (hl : ¬ Legal i)
    (hv : ¬ Overlooked i) (pc : Word) : oneInsn h r pc i = r.raise h pc i.inst .illegal := by
  cases i with
  | word w =>
    cases sort_word w with
    | overlooked ho => exact absurd ho hv
    | fence hf => exact absurd hf.legal hl
    | defined j hj => exact absurd ⟨j, hj ▸ .word j⟩ hl
    | refused hr => exact execute_refused h r pc _ _ (hr _)
  | half c =>
    cases sort_half c with
    | overlooked ho => exact absurd ho hv
    | defined j hj => exact absurd ⟨j, .half hj⟩ hl
    | refused hn hr => exact execute_refused h r pc _ _ (by rw [Insn.decode, hr]; rfl)

/-- **Where the interpreter accepts the instruction set**: an iteration executes a defined
encoding and refuses any other, unless it is one of the overlooked forms or of the refused
fences. -/
theorem riscvEmulatorLoop_accepts (h : Hooks H) (r : Run H)
    (hf : Fetchable (r.s.mem r.s.readonly.ptr) (r.s.readonly.ptr == 0) r.s.readonly.len r.s.pc) :
    Accepts h r (fetch (r.s.mem r.s.readonly.ptr) r.s.pc) ↔
      ¬ (Overlooked (fetch (r.s.mem r.s.readonly.ptr) r.s.pc) ∨
        FenceRefused (fetch (r.s.mem r.s.readonly.ptr) r.s.pc)) := by
  have hone := riscvEmulatorLoop_one h r hf
  generalize fetch (r.s.mem r.s.readonly.ptr) r.s.pc = i at hone ⊢
  constructor
  · rintro ⟨hex, hre⟩ (hv | hv)
    · obtain ⟨hlog, hout⟩ := hv.runs h r r.s.pc
      have he := hre hv.undefined
      rw [hone] at he
      exact landed_ne_raise hlog hout he
    · obtain ⟨j, hj, hdone⟩ := hv.denotes
      obtain ⟨y, _, he⟩ := (hex j hj).runs
      rw [hone, hv.raises, hdone] at he
      exact landed_ne_raise (by rfl) (by simp [execute]) he.symm
  · intro hv
    obtain ⟨ho, hf⟩ := not_or.mp hv
    constructor
    · intro j hj
      exact executes_legal hj hf hone
    · intro hl
      rw [hone, refuses_undefined hl ho]

/-- `OP` with `funct7 = 2` adds, and a `FENCE` with `rd = 1` stops. -/
theorem riscvEmulatorLoop_reserved :
    let r : Run Unit := ⟨State.boot [0xb3, 0x00, 0x00, 0x04] 0, []⟩
    let q : Run Unit := ⟨State.boot [0x8f, 0x00, 0x00, 0x00] 0, []⟩
    (fetch (r.s.mem 1) 0#32 = .word 0x040000b3#32 ∧ ¬ Legal (.word 0x040000b3#32) ∧
      (riscvEmulatorLoop Hooks.null r 1).stop = .budget ∧
      ¬ Accepts Hooks.null r (.word 0x040000b3#32)) ∧
    (fetch (q.s.mem 1) 0#32 = .word 0x0000008f#32 ∧ Legal (.word 0x0000008f#32) ∧
      (riscvEmulatorLoop Hooks.null q 1).stop = .trap ∧
      ¬ Accepts Hooks.null q (.word 0x0000008f#32)) := by
  have hv : Overlooked (.word 0x040000b3#32) :=
    .op (by decide) (by decide) (by decide) (by decide)
  have hf : FenceRefused (.word 0x0000008f#32) := ⟨by decide, by decide, by decide⟩
  refine ⟨⟨by decide, hv.undefined, by decide, fun hc => ?_⟩,
    ⟨by decide, hf.legal, by decide, fun hc => ?_⟩⟩
  · have hs := congrArg Result.stop (hc.refuses hv.undefined)
    revert hs
    decide
  · obtain ⟨j, hj, hdone⟩ := hf.denotes
    obtain ⟨y, _, he⟩ := (hc.executes j hj).runs
    rw [hdone] at he
    have hs := congrArg Result.stop he
    revert hs
    decide

/-- `ADDI x1, x0, 5` is neither. -/
theorem riscvEmulatorLoop_accepts_addi :
    Accepts Hooks.null ⟨State.boot [0x93, 0x00, 0x50, 0x00] 0, []⟩ (.word 0x00500093#32) :=
  (riscvEmulatorLoop_accepts Hooks.null ⟨State.boot [0x93, 0x00, 0x50, 0x00] 0, []⟩
    (by unfold Fetchable; decide)).2 (by
      have hi : fetch ((State.boot [0x93, 0x00, 0x50, 0x00] 0).mem 1) 0#32 =
          .word (encode (.opImm .addi 1#5 0#5 5#12)) := by decide
      rintro (hv | hv)
      · change Overlooked (fetch ((State.boot [0x93, 0x00, 0x50, 0x00] 0).mem 1) 0#32) at hv
        rw [hi] at hv
        exact encode_not_overlooked _ hv
      · change FenceRefused (fetch ((State.boot [0x93, 0x00, 0x50, 0x00] 0).mem 1) 0#32) at hv
        rw [hi] at hv
        cases hv with
        | mk ho => revert ho; decide)

end Purv
