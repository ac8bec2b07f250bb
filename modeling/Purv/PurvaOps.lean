import Purv.Purva
import Purv.TranscodeDecode

/-!
# Emitted words and their handlers

* `pack`, `low` — an op word by its fields, and the lemmas that read them back;
* `emit_*` — what `emit` writes for each class of ops, as packed words;
* `load_execLoad`, `store_execStore` — the evaluator's accesses are the interpreter's;
* `dispatch_fall`, `dispatch_branch`, .. — the handler of an emitted instruction does what the
  interpreter does with it.
-/

namespace Purv.Purva

open Bits Transcode

variable {H : Type}

/-! ## Fields of an op word -/

/-- An op, two registers and sixteen bits in a word. -/
def pack (op : Nat) (a b : Reg) (lo : BitVec 16) : Word :=
  opField op ||| regField a 21 ||| regField b 16 ||| lo.setWidth 32

/-- A register above eleven bits. -/
def low (c : Reg) (x : BitVec 11) : BitVec 16 := cat 16 c x

/-- The op field holds six bits. -/
theorem op_of_or {op : Nat} (hop : op < 64) {f : Word} (hf : f.toNat < 2 ^ 26) :
    TC_OP (opField op ||| f) = op := by
  have hw : (opField op ||| f) >>> 26 = BitVec.ofNat 32 op := by
    refine BitVec.eq_of_getLsbD_eq fun i hi => ?_
    have hhigh : f.getLsbD (26 + i) = false := by
      refine Nat.testBit_lt_two_pow (lt_of_lt_of_le hf ?_)
      exact Nat.pow_le_pow_right (by decide) (by omega)
    unfold opField
    simp only [BitVec.getLsbD_ushiftRight, BitVec.getLsbD_or, BitVec.getLsbD_shiftLeft,
      BitVec.getLsbD_ofNat, hhigh]
    by_cases h6 : i < 6
    · interval_cases i <;> simp
    · have hz : op.testBit i = false := Nat.testBit_lt_two_pow (lt_of_lt_of_le hop (by
        calc 64 = 2 ^ 6 := rfl
          _ ≤ 2 ^ i := Nat.pow_le_pow_right (by decide) (by omega)))
      simp [hz, show ¬ 26 + i < 32 by omega]
  unfold TC_OP
  rw [hw, BitVec.toNat_ofNat]
  omega

/-- A word whose bits from `n` on are clear is below `2 ^ n`. -/
theorem toNat_lt_of_bits {w : Word} {n : Nat} (h : ∀ i, n ≤ i → w.getLsbD i = false) :
    w.toNat < 2 ^ n :=
  Nat.lt_pow_two_of_testBit _ fun i hi => h i hi

section
variable {op : Nat} (a b : Reg) (lo : BitVec 16)

theorem pack_op (hop : op < 64) : TC_OP (pack op a b lo) = op := by
  unfold pack
  rw [BitVec.or_assoc, BitVec.or_assoc]
  refine op_of_or hop (toNat_lt_of_bits fun i hi => ?_)
  unfold regField
  simp [BitVec.getLsbD_of_ge a (i - 21) (by omega), BitVec.getLsbD_of_ge b (i - 16) (by omega),
    BitVec.getLsbD_of_ge lo i (by omega)]

theorem getLsbD_pack {i : Nat} (hi : i < 26) :
    (pack op a b lo).getLsbD i =
      if i < 16 then lo.getLsbD i else if i < 21 then b.getLsbD (i - 16) else a.getLsbD (i - 21) := by
  unfold pack opField regField
  interval_cases i <;> simp

@[simp] theorem pack_A : TC_A (pack op a b lo) = a := by
  ext i hi
  unfold TC_A
  rw [BitVec.getElem_extractLsb', getLsbD_pack a b lo (by omega), if_neg (by omega),
    if_neg (by omega), Nat.add_sub_cancel_left]
  exact BitVec.getLsbD_eq_getElem hi

@[simp] theorem pack_B : TC_B (pack op a b lo) = b := by
  ext i hi
  unfold TC_B
  rw [BitVec.getElem_extractLsb', getLsbD_pack a b lo (by omega), if_neg (by omega),
    if_pos (by omega), Nat.add_sub_cancel_left]
  exact BitVec.getLsbD_eq_getElem hi

/-- The low half of the word. -/
theorem pack_lo : (pack op a b lo).setWidth 16 = lo := by
  ext i hi
  rw [BitVec.getElem_setWidth, getLsbD_pack a b lo (by omega), if_pos hi]
  exact BitVec.getLsbD_eq_getElem hi

@[simp] theorem pack_IMM : TC_IMM (pack op a b lo) = lo.signExtend 32 := by
  unfold TC_IMM
  rw [pack_lo]

/-- The low bits of the word, one by one. -/
theorem getLsbD_lo {i : Nat} (hi : i < 16) : (pack op a b lo).getLsbD i = lo.getLsbD i := by
  rw [getLsbD_pack a b lo (by omega), if_pos hi]

variable (c : Reg) (x : BitVec 11)

theorem getLsbD_low {i : Nat} (hi : i < 16) :
    (low c x).getLsbD i = if i < 11 then x.getLsbD i else c.getLsbD (i - 11) := by
  rw [BitVec.getLsbD_eq_getElem hi]
  exact getElem_cat 16 c x i hi

@[simp] theorem pack_C : TC_C (pack op a b (low c x)) = c := by
  ext i hi
  unfold TC_C
  rw [BitVec.getElem_extractLsb', getLsbD_lo a b _ (by omega), getLsbD_low c x (by omega),
    if_neg (by omega), Nat.add_sub_cancel_left]
  exact BitVec.getLsbD_eq_getElem hi

/-- The shift of `SHADD`. -/
theorem pack_SH (sh : BitVec 5) (y : BitVec 6) :
    TC_SH (pack op a b (low c (cat 11 sh y))) = sh.setWidth 32 := by
  unfold TC_SH
  refine BitVec.eq_of_getLsbD_eq fun i hi => ?_
  by_cases h5 : i < 5
  · have hb : (low c (cat 11 sh y)).getLsbD (6 + i) = sh.getLsbD i := by
      rw [getLsbD_low _ _ (by omega), if_pos (by omega), BitVec.getLsbD_eq_getElem (by omega),
        getElem_cat _ _ _ _ (by omega), if_neg (by omega), Nat.add_sub_cancel_left]
    rw [BitVec.getLsbD_and, BitVec.getLsbD_ushiftRight, getLsbD_lo a b _ (by omega), hb,
      BitVec.getLsbD_setWidth]
    interval_cases i <;> simp
  · have h31 : (31#32).getLsbD i = false := by
      interval_cases i <;> first | omega | rfl
    rw [BitVec.getLsbD_and, h31, Bool.and_false, BitVec.getLsbD_setWidth,
      BitVec.getLsbD_of_ge sh i (by omega), Bool.and_false]

theorem pack_OFF11 : TC_OFF11 (pack op a b (low c x)) = x.signExtend 32 := by
  have hx : (pack op a b (low c x)).setWidth 11 = x := by
    ext i hi
    rw [BitVec.getElem_setWidth, getLsbD_lo a b _ (by omega), getLsbD_low c x (by omega), if_pos hi]
    exact BitVec.getLsbD_eq_getElem hi
  have hs := sext_eq (pack op a b (low c x)) 11 (by decide) (by decide)
  rw [hx] at hs
  exact hs

/-- The two offsets of `LWLW`. -/
theorem pack_O1 (o1 o2 : BitVec 8) : TC_O1 (pack op a b (cat 16 o1 o2)) = o1.signExtend 32 := by
  have ho : (pack op a b (cat 16 o1 o2) >>> 8).setWidth 8 = o1 := by
    ext i hi
    rw [BitVec.getElem_setWidth, BitVec.getLsbD_ushiftRight, getLsbD_lo a b _ (by omega),
      BitVec.getLsbD_eq_getElem (by omega), getElem_cat _ _ _ _ (by omega), if_neg (by omega),
      Nat.add_sub_cancel_left]
    exact BitVec.getLsbD_eq_getElem hi
  unfold TC_O1
  rw [ho]

theorem pack_O2 (o1 o2 : BitVec 8) : TC_O2 (pack op a b (cat 16 o1 o2)) = o2.signExtend 32 := by
  have ho : (pack op a b (cat 16 o1 o2)).setWidth 8 = o2 := by
    ext i hi
    rw [BitVec.getElem_setWidth, getLsbD_lo a b _ (by omega),
      BitVec.getLsbD_eq_getElem (by omega), getElem_cat _ _ _ _ (by omega), if_pos (by omega)]
    exact BitVec.getLsbD_eq_getElem hi
  unfold TC_O2
  rw [ho]

/-- The two offsets of `LWSW`, in words. -/
theorem pack_W1 (w1 : BitVec 5) (w2 : BitVec 6) :
    TC_W1 (pack op a b (low c (cat 11 w1 w2))) = w1.setWidth 32 <<< 2 := by
  show TC_SH (pack op a b (low c (cat 11 w1 w2))) <<< 2 = _
  rw [pack_SH]

theorem pack_W2 (w1 : BitVec 5) (w2 : BitVec 6) :
    TC_W2 (pack op a b (low c (cat 11 w1 w2))) = w2.setWidth 32 <<< 2 := by
  have hbits : pack op a b (low c (cat 11 w1 w2)) &&& 63#32 = w2.setWidth 32 := by
    refine BitVec.eq_of_getLsbD_eq fun i hi => ?_
    by_cases h6 : i < 6
    · have hb : (low c (cat 11 w1 w2)).getLsbD i = w2.getLsbD i := by
        rw [getLsbD_low _ _ (by omega), if_pos (by omega), BitVec.getLsbD_eq_getElem (by omega),
          getElem_cat _ _ _ _ (by omega), if_pos (by omega)]
      rw [BitVec.getLsbD_and, getLsbD_lo a b _ (by omega), hb, BitVec.getLsbD_setWidth]
      interval_cases i <;> simp
    · have h63 : (63#32).getLsbD i = false := by
        interval_cases i <;> first | omega | rfl
      rw [BitVec.getLsbD_and, h63, Bool.and_false, BitVec.getLsbD_setWidth,
        BitVec.getLsbD_of_ge w2 i (by omega), Bool.and_false]
  unfold TC_W2
  rw [hbits]

end

/-! ## What `emit` writes -/

theorem and_ffff (v : Word) : v &&& 0xffff#32 = (v.setWidth 16).setWidth 32 := by
  ext i hi
  interval_cases i <;> simp

theorem and_7ff (v : Word) : v &&& 0x7ff#32 = (v.setWidth 11).setWidth 32 := by
  ext i hi
  interval_cases i <;> simp

theorem or_low (f : Word) (c : Reg) (x : BitVec 11) :
    f ||| regField c 11 ||| x.setWidth 32 = f ||| (low c x).setWidth 32 := by
  rw [BitVec.or_assoc]
  congr 1
  unfold regField
  refine BitVec.eq_of_getLsbD_eq fun i hi => ?_
  rw [BitVec.getLsbD_or, BitVec.getLsbD_shiftLeft, BitVec.getLsbD_setWidth, BitVec.getLsbD_setWidth,
    BitVec.getLsbD_setWidth]
  by_cases h16 : i < 16
  · rw [getLsbD_low c x h16]
    by_cases h11 : i < 11
    · simp [h11, hi]
    · simp [h11, hi, show i - 11 < 32 by omega, BitVec.getLsbD_of_ge x i (by omega)]
  · simp [BitVec.getLsbD_of_ge x i (by omega), BitVec.getLsbD_of_ge c (i - 11) (by omega),
      BitVec.getLsbD_of_ge (low c x) i (by omega)]

theorem or_low_zero (f : Word) (c : Reg) :
    f ||| regField c 11 = f ||| (low c 0#11).setWidth 32 := by
  rw [← or_low]
  simp

section
variable (at_ : Word) (d : Dec) (map : Nat → Word) (len : Word)

/-- Register-register ops. -/
theorem emit_reg (hop : d.op ≤ RISCV_OP_SRA ∨ (RISCV_OP_MUL ≤ d.op ∧ d.op ≤ RISCV_OP_REMU)) :
    emit at_ d map len = [pack d.op d.rd d.rs1 (low d.rs2 0#11)] := by
  unfold emit pack
  rw [← or_low_zero]
  exact if_pos hop

/-- Register-immediate ops, loads and `JALR`. -/
theorem emit_imm (hop : (RISCV_OP_ADDI ≤ d.op ∧ d.op ≤ RISCV_OP_SRAI) ∨
      (RISCV_OP_LB ≤ d.op ∧ d.op ≤ RISCV_OP_LHU) ∨ d.op = RISCV_OP_JALR) :
    emit at_ d map len = [pack d.op d.rd d.rs1 (d.imm.setWidth 16)] := by
  obtain ⟨op, rd, rs1, rs2, imm, target, width⟩ := d
  unfold pack
  rw [← and_ffff]
  unfold RISCV_OP_ADDI RISCV_OP_SRAI RISCV_OP_LB RISCV_OP_LHU RISCV_OP_JALR at hop
  rcases hop with ⟨h1, h2⟩ | ⟨h1, h2⟩ | h1
  · simp only at h1 h2
    interval_cases op <;> rfl
  · simp only at h1 h2
    interval_cases op <;> rfl
  · simp only at h1
    subst h1
    rfl

/-- Stores. -/
theorem emit_store (hop : RISCV_OP_SB ≤ d.op ∧ d.op ≤ RISCV_OP_SW) :
    emit at_ d map len = [pack d.op d.rs2 d.rs1 (d.imm.setWidth 16)] := by
  obtain ⟨op, rd, rs1, rs2, imm, target, width⟩ := d
  unfold pack
  rw [← and_ffff]
  unfold RISCV_OP_SB RISCV_OP_SW at hop
  obtain ⟨h1, h2⟩ := hop
  simp only at h1 h2
  interval_cases op <;> rfl

/-- The displacement of a branch or jump, in bytes of ops. -/
def delta4 : Word := (targetWord map len d.target at_ - at_) * 4#32

/-- Branches. -/
theorem emit_branch (hop : RISCV_OP_BEQ ≤ d.op ∧ d.op ≤ RISCV_OP_BGEU) :
    emit at_ d map len = [pack d.op d.rs1 d.rs2 ((delta4 at_ d map len).setWidth 16)] := by
  obtain ⟨op, rd, rs1, rs2, imm, target, width⟩ := d
  unfold pack
  rw [← and_ffff]
  unfold RISCV_OP_BEQ RISCV_OP_BGEU at hop
  obtain ⟨h1, h2⟩ := hop
  simp only at h1 h2
  interval_cases op <;> rfl

/-- `LW_BZ` and `LBU_BZ`. -/
theorem emit_bz (hop : d.op = RISCV_OP_LW_BZ ∨ d.op = RISCV_OP_LBU_BZ) :
    emit at_ d map len = [pack d.op d.rd d.rs1 (d.imm.setWidth 16),
      delta4 at_ d map len ||| (d.rs2.setWidth 32 &&& 1#32)] := by
  obtain ⟨op, rd, rs1, rs2, imm, target, width⟩ := d
  unfold pack
  rw [← and_ffff]
  rcases hop with hop | hop
  · simp only at hop
    subst hop
    rfl
  · simp only at hop
    subst hop
    rfl

/-- `SHADD`. -/
theorem emit_shadd (hop : d.op = RISCV_OP_SHADD) :
    emit at_ d map len = [pack d.op d.rd d.rs1 (low d.rs2 (cat 11 (d.imm.setWidth 5) 0#6))] := by
  have himm : (d.imm &&& 31#32) <<< 6 = (cat 11 (d.imm.setWidth 5) 0#6).setWidth 32 := by
    ext i hi
    unfold cat
    interval_cases i <;> simp
  obtain ⟨op, rd, rs1, rs2, imm, target, width⟩ := d
  simp only at hop himm
  subst hop
  unfold pack
  rw [← or_low, ← himm]
  rfl

/-- `LWX` and `LWSW`. -/
theorem emit_low11 (hop : d.op = RISCV_OP_LWX ∨ d.op = RISCV_OP_LWSW) :
    emit at_ d map len = [pack d.op d.rd d.rs1 (low d.rs2 (d.imm.setWidth 11))] := by
  obtain ⟨op, rd, rs1, rs2, imm, target, width⟩ := d
  unfold pack
  rw [← or_low, ← and_7ff]
  rcases hop with hop | hop
  · simp only at hop
    subst hop
    rfl
  · simp only at hop
    subst hop
    rfl

/-- `LWLW` and `VCALL`. -/
theorem emit_lwlw (hop : d.op = RISCV_OP_LWLW ∨ d.op = RISCV_OP_VCALL) :
    emit at_ d map len = [pack d.op d.rd d.rs1 (d.imm.setWidth 16)] := by
  obtain ⟨op, rd, rs1, rs2, imm, target, width⟩ := d
  unfold pack
  rw [← and_ffff]
  rcases hop with hop | hop
  · simp only at hop
    subst hop
    rfl
  · simp only at hop
    subst hop
    rfl

end

/-! ## Memory -/

theorem memR_eq (s : State H) (a n : Word) : memR s a n = memXlate s a n false := by
  unfold memR memW memXlate
  cases s.writable.hit a n <;> cases s.readonly.hit a n <;> rfl

theorem memW_eq (s : State H) (a n : Word) : memW s a n = memXlate s a n true := by
  unfold memW memXlate
  cases s.writable.hit a n <;> rfl

theorem put_eq {r : Run H} {i : Reg} (hi : i ≠ 0#5) (v : Word) : put r i v = r.wr i v := by
  unfold put Run.wr State.wr
  rw [if_neg hi]

/-- The C type of a load op. -/
def ctypeOf (op : Nat) : CType :=
  match op with
  | RISCV_OP_LB => .int8_t
  | RISCV_OP_LH => .int16_t
  | RISCV_OP_LW => .int32_t
  | RISCV_OP_LBU => .uint8_t
  | _ => .uint16_t

/-- A value in the regions, read by the two engines. -/
theorem cast_ldLe (s : State H) (p : Ptr) {op : Nat} (hlo : RISCV_OP_LB ≤ op)
    (hhi : op ≤ RISCV_OP_LHU) :
    (ctypeOf op).cast (ldLe s p (ctypeOf op).size) = loadValue s p (loadFunct3 op) := by
  have hhalf : ((s.byte p 0).setWidth 32 ||| (s.byte p 1).setWidth 32 <<< 8 : Word).setWidth 16 =
      (s.byte p 0).setWidth 16 ||| (s.byte p 1).setWidth 16 <<< 8 := by
    ext i hi
    interval_cases i <;> simp
  have hbyte : ((s.byte p 0).setWidth 32 : Word).setWidth 8 = s.byte p 0 := by
    ext i hi
    interval_cases i <;> simp
  unfold RISCV_OP_LB RISCV_OP_LHU at *
  interval_cases op
  case «27» =>
    show (((s.byte p 0).setWidth 32 : Word).setWidth 8).signExtend 32 = (s.byte p 0).signExtend 32
    rw [hbyte]
  case «28» =>
    show (((s.byte p 0).setWidth 32 ||| (s.byte p 1).setWidth 32 <<< 8 : Word).setWidth
      16).signExtend 32 = _
    rw [hhalf]
    rfl
  case «29» =>
    show ((s.byte p 0).setWidth 32 ||| (s.byte p 1).setWidth 32 <<< 8 |||
      ((s.byte p 2).setWidth 32 <<< 16 ||| (s.byte p 3).setWidth 32 <<< 24) : Word) = _
    rw [← BitVec.or_assoc]
    rfl
  case «30» =>
    show (((s.byte p 0).setWidth 32 : Word).setWidth 8).setWidth 32 = _
    rw [hbyte]
    rfl
  case «31» =>
    show (((s.byte p 0).setWidth 32 ||| (s.byte p 1).setWidth 32 <<< 8 : Word).setWidth
      16).setWidth 32 = ((s.byte p 0).setWidth 32 ||| (s.byte p 1).setWidth 32 <<< 8 : Word)
    ext i hi
    interval_cases i <;> simp

/-- What a callback answers, narrowed by the two engines. -/
theorem cast_narrow (v : Word) {op : Nat} (hlo : RISCV_OP_LB ≤ op) (hhi : op ≤ RISCV_OP_LHU) :
    (ctypeOf op).cast v = narrow v (BitVec.ofNat 32 (ctypeOf op).size) (loadFunct3 op) := by
  unfold RISCV_OP_LB RISCV_OP_LHU at *
  interval_cases op
  case «27» => exact (sext_eq v 8 (by decide) (by decide)).symm
  case «28» => exact (sext_eq v 16 (by decide) (by decide)).symm
  case «29» => exact (sext_full v).symm
  case «30» =>
    show (v.setWidth 8).setWidth 32 = v &&& 0xff#32
    ext i hi
    interval_cases i <;> simp
  case «31» =>
    show (v.setWidth 16).setWidth 32 = v &&& 0xffff#32
    exact (and_ffff v).symm

/-- **A load of the evaluator is the interpreter's.** -/
theorem load_execLoad (h : Hooks H) (r : Run H) {op : Nat} (hlo : RISCV_OP_LB ≤ op)
    (hhi : op ≤ RISCV_OP_LHU) {rd : Reg} (hrd : rd ≠ 0#5) (a : Word) :
    put (load h r a (ctypeOf op).size).1 rd ((ctypeOf op).cast (load h r a (ctypeOf op).size).2) =
      execLoad h r rd a (loadFunct3 op) := by
  have hn : (BitVec.ofNat 32 (ctypeOf op).size : Word) = 1#32 <<< ((loadFunct3 op).toNat % 4) := by
    unfold RISCV_OP_LB RISCV_OP_LHU at *
    interval_cases op <;> rfl
  unfold load execLoad
  rw [memR_eq, ← hn]
  simp only [if_neg hrd]
  cases memXlate r.s a (BitVec.ofNat 32 (ctypeOf op).size) false with
  | some p =>
    simp only
    rw [put_eq hrd, cast_ldLe r.s p hlo hhi]
  | none =>
    simp only
    rw [put_eq hrd, cast_narrow _ hlo hhi]

/-- Bytes of a store op. -/
def storeSize (op : Nat) : Nat :=
  match op with
  | RISCV_OP_SB => 1
  | RISCV_OP_SH => 2
  | _ => 4

/-- **A store of the evaluator is the interpreter's.** -/
theorem store_execStore (h : Hooks H) (r : Run H) {op : Nat} (hlo : RISCV_OP_SB ≤ op)
    (hhi : op ≤ RISCV_OP_SW) (a v : Word) :
    store h r a v (storeSize op) = execStore h r a v (BitVec.ofNat 3 (op - RISCV_OP_SB)) := by
  unfold store execStore
  rw [memW_eq]
  unfold RISCV_OP_SB RISCV_OP_SW at *
  interval_cases op <;> rfl

/-! ## Unfused instructions -/

/-- What `decode` promises about an instruction: no write to x0 is left among the ops that write
unguarded, and its immediate fits the op word. -/
structure Fits (d : Dec) : Prop where
  rd : d.op ≤ RISCV_OP_REMU ∨ d.op = RISCV_OP_LUI ∨ d.op = RISCV_OP_AUIPC → d.rd ≠ 0#5
  imm : d.op ≤ RISCV_OP_JALR → (d.imm.setWidth 16).signExtend 32 = d.imm
  upper : d.op = RISCV_OP_LUI ∨ d.op = RISCV_OP_AUIPC → d.imm &&& 0xfffff#32 = d.imm

/-- A small signed value survives being cut to `n` bits. -/
theorem signExtend_setWidth {v : Word} {n : Nat} (hn : 0 < n) (hn' : n ≤ 32)
    (hlo : -(2 ^ (n - 1) : Int) ≤ v.toInt) (hhi : v.toInt < 2 ^ (n - 1)) :
    (v.setWidth n).signExtend 32 = v := by
  apply BitVec.eq_of_toInt_eq
  rw [BitVec.toInt_signExtend_of_le hn', BitVec.toInt_setWidth]
  have hpow : (2 : Int) ^ n = 2 * 2 ^ (n - 1) := by
    obtain ⟨m, rfl⟩ : ∃ m, n = m + 1 := ⟨n - 1, by omega⟩
    rw [Nat.add_sub_cancel, pow_succ]
    ring
  have hb : Int.bmod v.toInt (2 ^ n) = v.toInt := by
    apply Int.bmod_eq_of_le
    · push_cast; omega
    · push_cast; omega
  rw [← hb]
  conv_rhs => rw [BitVec.toInt_eq_toNat_bmod]
  rw [Int.bmod_bmod_of_dvd (by exact_mod_cast Nat.pow_dvd_pow 2 hn')]

/-- The immediates that `decode` takes from a word. -/
theorem sshift_fits (w : Word) :
    ((w.sshiftRight 20).setWidth 16).signExtend 32 = w.sshiftRight 20 := by
  have hint : (w.sshiftRight 20).toInt = w.toInt / 2 ^ 20 := by
    rw [BitVec.toInt_sshiftRight, Int.shiftRight_eq_div_pow]
    rfl
  have hlo := BitVec.le_toInt w
  have hhi := BitVec.toInt_lt (x := w)
  exact signExtend_setWidth (by decide) (by decide) (by rw [hint]; omega) (by rw [hint]; omega)

theorem storeImm_fits (w : Word) :
    ((storeImm w).setWidth 16).signExtend 32 = storeImm w := by
  unfold storeImm bits
  ext i hi
  interval_cases i <;>
    simp [BitVec.getElem_signExtend, BitVec.msb_eq_getLsbD_last, BitVec.getElem_sshiftRight]

theorem bits_fits (w : Word) (lo len : Nat) (h : len < 16) :
    ((bits w lo len).setWidth 16).signExtend 32 = bits w lo len := by
  have hlt : (bits w lo len).toNat < 2 ^ len := by
    unfold bits
    rw [BitVec.toNat_setWidth]
    exact lt_of_le_of_lt (Nat.mod_le _ _) (BitVec.isLt _)
  have hpow : 2 ^ len ≤ 2 ^ 15 := Nat.pow_le_pow_right (by decide) (by omega)
  have hint : (bits w lo len).toInt = (bits w lo len).toNat :=
    BitVec.toInt_eq_toNat_of_lt (by omega)
  exact signExtend_setWidth (by decide) (by decide) (by rw [hint]; omega) (by rw [hint]; omega)

/-- **What `decode` leaves fits an op word.** -/
theorem decode_fits (code : Nat → Byte) (off : Word) : Fits (decode code off) := by
  unfold decode
  generalize wordAt code off = w
  have hf3 : ∀ f3 : BitVec 3, RISCV_OP_ADDI + f3.toNat < RISCV_OP_LUI ∧
      RISCV_OP_MUL + f3.toNat < RISCV_OP_LUI ∧ RISCV_OP_ADD + f3.toNat < RISCV_OP_LUI ∧
      loadOp f3 ≠ RISCV_OP_LUI ∧ loadOp f3 ≠ RISCV_OP_AUIPC ∧ storeOp f3 ≠ RISCV_OP_LUI ∧
      storeOp f3 ≠ RISCV_OP_AUIPC ∧ branchOp f3 ≠ RISCV_OP_LUI ∧
      branchOp f3 ≠ RISCV_OP_AUIPC := by
    decide
  obtain ⟨haddi, hmul, hadd, hl, hl', hs, hs', hb, hb'⟩ := hf3 (w.extractLsb' 12 3)
  have hzero : ((0#32).setWidth 16).signExtend 32 = (0#32 : Word) := by decide
  have hplain : ∀ (op : Nat) (imm : Word), (imm.setWidth 16).signExtend 32 = imm →
      op ≠ RISCV_OP_LUI → op ≠ RISCV_OP_AUIPC →
      (op ≤ RISCV_OP_JALR → (imm.setWidth 16).signExtend 32 = imm) ∧
        (op = RISCV_OP_LUI ∨ op = RISCV_OP_AUIPC → imm &&& 0xfffff#32 = imm) :=
    fun op imm hd h1 h2 => ⟨fun _ => hd, fun h => h.elim (absurd · h1) (absurd · h2)⟩
  have hupper : ∀ op : Nat, RISCV_OP_JALR < op →
      (op ≤ RISCV_OP_JALR → ((bits w 12 20).setWidth 16).signExtend 32 = bits w 12 20) ∧
        (op = RISCV_OP_LUI ∨ op = RISCV_OP_AUIPC →
          bits w 12 20 &&& 0xfffff#32 = bits w 12 20) := by
    intro op hlt
    refine ⟨fun hle => by omega, fun _ => ?_⟩
    ext i hi
    interval_cases i <;> simp [bits]
  have hword : ((decodeWord w off).op ≤ RISCV_OP_JALR →
        ((decodeWord w off).imm.setWidth 16).signExtend 32 = (decodeWord w off).imm) ∧
      ((decodeWord w off).op = RISCV_OP_LUI ∨ (decodeWord w off).op = RISCV_OP_AUIPC →
        (decodeWord w off).imm &&& 0xfffff#32 = (decodeWord w off).imm) := by
    unfold decodeWord
    simp only
    split
    case h_1 =>
      split
      · exact hplain RISCV_OP_SLLI _ (bits_fits w 20 5 (by decide)) (by decide) (by decide)
      · split
        · refine hplain (if w.extractLsb' 25 7 = 0x20#7 then RISCV_OP_SRAI else RISCV_OP_SRLI) _
            (bits_fits w 20 5 (by decide)) ?_ ?_
          · split <;> decide
          · split <;> decide
        · exact hplain _ _ (sshift_fits w) (Nat.ne_of_lt haddi)
            (Nat.ne_of_lt (Nat.lt_succ_of_lt haddi))
    case h_2 =>
      split
      · exact hplain _ _ hzero (Nat.ne_of_lt hmul) (Nat.ne_of_lt (Nat.lt_succ_of_lt hmul))
      · split
        · refine hplain (if w.extractLsb' 12 3 = 0#3 then RISCV_OP_SUB else RISCV_OP_SRA) _ hzero
            ?_ ?_
          · split <;> decide
          · split <;> decide
        · exact hplain _ _ hzero (Nat.ne_of_lt hadd) (Nat.ne_of_lt (Nat.lt_succ_of_lt hadd))
    case h_3 => exact hplain _ _ (sshift_fits w) hl hl'
    case h_4 => exact hplain _ _ (storeImm_fits w) hs hs'
    case h_5 => exact hplain _ _ hzero hb hb'
    case h_6 => exact hplain RISCV_OP_JAL _ hzero (by decide) (by decide)
    case h_7 => exact hplain RISCV_OP_JALR _ (sshift_fits w) (by decide) (by decide)
    case h_8 => exact hupper RISCV_OP_LUI (by decide)
    case h_9 => exact hupper RISCV_OP_AUIPC (by decide)
    case h_10 =>
      split
      · exact hplain RISCV_OP_MEMOP _ (bits_fits w 12 3 (by decide)) (by decide) (by decide)
      · exact hplain RISCV_OP_ILLEGAL _ hzero (by decide) (by decide)
    case h_11 =>
      split
      · exact hplain RISCV_OP_ILLEGAL _ hzero (by decide) (by decide)
      · exact hplain RISCV_OP_NOP _ hzero (by decide) (by decide)
    case h_12 =>
      split
      · exact hplain RISCV_OP_ECALL _ hzero (by decide) (by decide)
      · split
        · exact hplain RISCV_OP_EBREAK _ hzero (by decide) (by decide)
        · exact hplain RISCV_OP_ILLEGAL _ hzero (by decide) (by decide)
    case h_13 => exact hplain RISCV_OP_ILLEGAL _ hzero (by decide) (by decide)
  unfold Dec.foldZero
  split
  · have hnop : ¬ (RISCV_OP_NOP ≤ RISCV_OP_REMU ∨ RISCV_OP_NOP = RISCV_OP_LUI ∨
        RISCV_OP_NOP = RISCV_OP_AUIPC) := by decide
    have hhigh : ¬ RISCV_OP_NOP ≤ RISCV_OP_JALR := by decide
    exact ⟨fun h => absurd h hnop, fun h => absurd h hhigh, fun h => absurd (Or.inr h) hnop⟩
  · rename_i hno
    exact ⟨fun h hrd => hno ⟨hrd, h⟩, hword.1, hword.2⟩

section
variable (h : Hooks H) (r : Run H) (p w2 pc inst at_ : Word) (d : Dec) (map : Nat → Word)
  (len : Word) (hf : Fits d)

include hf

theorem dispatch_reg (hop : d.op ≤ RISCV_OP_SRA ∨ (RISCV_OP_MUL ≤ d.op ∧ d.op ≤ RISCV_OP_REMU)) :
    d.next h r pc inst =
        ((dispatch h r p (pack d.op d.rd d.rs1 (low d.rs2 0#11)) w2).1, .done) ∧
      (dispatch h r p (pack d.op d.rd d.rs1 (low d.rs2 0#11)) w2).2 = (1, .fall 1) := by
  obtain ⟨op, rd, rs1, rs2, imm, target, width⟩ := d
  have hrd : rd ≠ 0#5 := hf.rd (by
    unfold RISCV_OP_SRA RISCV_OP_MUL RISCV_OP_REMU at *
    simp only at *
    omega)
  unfold RISCV_OP_SRA RISCV_OP_MUL RISCV_OP_REMU at hop
  simp only at hop
  have hop' := @pack_op op rd rs1 (low rs2 0#11) (by omega)
  simp only [dispatch, hop', pack_A, pack_B, pack_C, put_eq hrd]
  clear hf hop'
  rcases hop with hop | ⟨h1, h2⟩
  · interval_cases op <;> exact ⟨rfl, rfl⟩
  · interval_cases op <;> exact ⟨rfl, rfl⟩

theorem dispatch_imm (hop : RISCV_OP_ADDI ≤ d.op ∧ d.op ≤ RISCV_OP_SRAI) :
    d.next h r pc inst =
        ((dispatch h r p (pack d.op d.rd d.rs1 (d.imm.setWidth 16)) w2).1, .done) ∧
      (dispatch h r p (pack d.op d.rd d.rs1 (d.imm.setWidth 16)) w2).2 = (1, .fall 1) := by
  obtain ⟨op, rd, rs1, rs2, imm, target, width⟩ := d
  unfold RISCV_OP_ADDI RISCV_OP_SRAI at hop
  simp only at hop
  obtain ⟨h1, h2⟩ := hop
  have hrd : rd ≠ 0#5 := hf.rd (Or.inl (by unfold RISCV_OP_REMU; simp only; omega))
  have himm : (imm.setWidth 16).signExtend 32 = imm :=
    hf.imm (by unfold RISCV_OP_JALR; simp only; omega)
  have hop' := @pack_op op rd rs1 (imm.setWidth 16) (by omega)
  simp only [dispatch, hop', pack_A, pack_B, pack_IMM, himm, put_eq hrd]
  clear hf hop'
  interval_cases op <;> exact ⟨rfl, rfl⟩

theorem dispatch_load (hop : RISCV_OP_LB ≤ d.op ∧ d.op ≤ RISCV_OP_LHU) :
    d.next h r pc inst =
        ((dispatch h r p (pack d.op d.rd d.rs1 (d.imm.setWidth 16)) w2).1, .done) ∧
      (dispatch h r p (pack d.op d.rd d.rs1 (d.imm.setWidth 16)) w2).2 = (1, .fall 1) := by
  obtain ⟨op, rd, rs1, rs2, imm, target, width⟩ := d
  have hexec : ∀ w : Word, TC_A w = rd → TC_B w = rs1 → TC_IMM w = imm →
      hLoad h r w (ctypeOf op) = execLoad h r rd (r.s.x rs1 + imm) (loadFunct3 op) := by
    intro w hA hB hI
    unfold hLoad
    rw [hA, hB, hI]
    by_cases hrd : rd = 0#5
    · rw [if_neg (by rw [hrd]; simp)]
      unfold execLoad
      simp only [if_pos hrd]
    · rw [if_pos hrd]
      exact load_execLoad h r hop.1 hop.2 hrd _
  have himm : (imm.setWidth 16).signExtend 32 = imm := hf.imm (by
    unfold RISCV_OP_LHU at hop
    unfold RISCV_OP_JALR
    simp only at hop ⊢
    omega)
  unfold RISCV_OP_LB RISCV_OP_LHU at hop
  simp only at hop
  obtain ⟨h1, h2⟩ := hop
  have hop' := @pack_op op rd rs1 (imm.setWidth 16) (by omega)
  have hl := hexec (pack op rd rs1 (imm.setWidth 16)) (pack_A _ _ _) (pack_B _ _ _)
    ((pack_IMM _ _ _).trans himm)
  simp only [dispatch, hop']
  clear hf hop' hexec
  interval_cases op <;> exact ⟨congrArg (·, Next.done) hl.symm, rfl⟩

theorem dispatch_store (hop : RISCV_OP_SB ≤ d.op ∧ d.op ≤ RISCV_OP_SW) :
    d.next h r pc inst =
        ((dispatch h r p (pack d.op d.rs2 d.rs1 (d.imm.setWidth 16)) w2).1, .done) ∧
      (dispatch h r p (pack d.op d.rs2 d.rs1 (d.imm.setWidth 16)) w2).2 = (1, .fall 1) := by
  obtain ⟨op, rd, rs1, rs2, imm, target, width⟩ := d
  have himm : (imm.setWidth 16).signExtend 32 = imm := hf.imm (by
    unfold RISCV_OP_SW at hop
    unfold RISCV_OP_JALR
    simp only at hop ⊢
    omega)
  have hs := store_execStore h r hop.1 hop.2 (r.s.x rs1 + imm) (r.s.x rs2)
  unfold RISCV_OP_SB RISCV_OP_SW at hop
  simp only at hop
  obtain ⟨h1, h2⟩ := hop
  have hop' := @pack_op op rs2 rs1 (imm.setWidth 16) (by omega)
  simp only [dispatch, hop', hStore, pack_A, pack_B, pack_IMM, himm]
  clear hf hop'
  interval_cases op <;> exact ⟨congrArg (·, Next.done) hs.symm, rfl⟩

omit hf in
theorem dispatch_branch (lo : BitVec 16) (hop : RISCV_OP_BEQ ≤ d.op ∧ d.op ≤ RISCV_OP_BGEU) :
    ∃ t : Bool, d.next h r pc inst = (r, if t then .jump d.target else .done) ∧
      dispatch h r p (pack d.op d.rs1 d.rs2 lo) w2 =
        (r, 1, if t then .reloc (p + (lo.signExtend 32).sshiftRight 2) else .fall 1) := by
  obtain ⟨op, rd, rs1, rs2, imm, target, width⟩ := d
  unfold RISCV_OP_BEQ RISCV_OP_BGEU at hop
  simp only at hop
  obtain ⟨h1, h2⟩ := hop
  have hop' := @pack_op op rs1 rs2 lo (by omega)
  refine ⟨taken op (r.s.x rs1) (r.s.x rs2), ?_⟩
  simp only [dispatch, hop', hBranch, pack_A, pack_B, pack_IMM]
  clear hop'
  interval_cases op <;> exact ⟨rfl, rfl⟩

theorem dispatch_jalr (hop : d.op = RISCV_OP_JALR) :
    ∃ t, d.next h r pc inst = (r.wr d.rd (pc + 4#32), .jump t) ∧
      dispatch h r p (pack d.op d.rd d.rs1 (d.imm.setWidth 16)) w2 =
        (r.wr d.rd (p <<< 2 + 4#32), 1, .indirect t) := by
  obtain ⟨op, rd, rs1, rs2, imm, target, width⟩ := d
  simp only at hop
  subst hop
  have himm : (imm.setWidth 16).signExtend 32 = imm := hf.imm (Nat.le_refl _)
  have hop' := @pack_op RISCV_OP_JALR rd rs1 (imm.setWidth 16) (by decide)
  simp only [dispatch, hop', pack_A, pack_B, pack_IMM, himm]
  exact ⟨_, rfl, rfl⟩

end

/-! ## Jumps, upper immediates and traps -/

section
variable (at_ : Word) (d : Dec) (map : Nat → Word) (len : Word)

/-- The op field and the register of a word with a wide immediate. -/
theorem wide_fields {op : Nat} (hop : op < 64) (rd : Reg) {imm : Word} (himm : imm.toNat < 2 ^ 21) :
    TC_OP (opField op ||| regField rd 21 ||| imm) = op ∧
      TC_A (opField op ||| regField rd 21 ||| imm) = rd ∧
      ∀ i < 21, (opField op ||| regField rd 21 ||| imm).getLsbD i = imm.getLsbD i := by
  have hz : ∀ i, 21 ≤ i → imm.getLsbD i = false := fun i hi =>
    Nat.testBit_lt_two_pow (lt_of_lt_of_le himm (Nat.pow_le_pow_right (by decide) hi))
  refine ⟨?_, ?_, ?_⟩
  · rw [BitVec.or_assoc]
    refine op_of_or hop (toNat_lt_of_bits fun i hi => ?_)
    unfold regField
    simp [hz i (by omega), BitVec.getLsbD_of_ge rd (i - 21) (by omega)]
  · ext i hi
    unfold TC_A opField regField
    rw [BitVec.getElem_extractLsb', BitVec.getLsbD_or, BitVec.getLsbD_or, hz _ (by omega)]
    interval_cases i <;> simp
  · intro i hi
    unfold opField regField
    simp only [BitVec.getLsbD_or, BitVec.getLsbD_shiftLeft, BitVec.getLsbD_setWidth]
    simp [show i < 26 by omega, hi]

/-- The 21-bit field of `JAL` and `LI`. -/
theorem joff_field {op : Nat} (hop : op < 64) (rd : Reg) (imm : Word) :
    TC_JOFF (opField op ||| regField rd 21 ||| (imm &&& 0x1fffff#32)) = sext imm 21 := by
  have hlt : (imm &&& 0x1fffff#32).toNat < 2 ^ 21 := by
    rw [BitVec.toNat_and]
    exact Nat.and_lt_two_pow _ (by decide)
  obtain ⟨-, -, hlo⟩ := wide_fields hop rd hlt
  have hw : ((opField op ||| regField rd 21 ||| (imm &&& 0x1fffff#32)) &&&
      0x1fffff#32) <<< 11 = imm <<< 11 := by
    refine BitVec.eq_of_getLsbD_eq fun i hi => ?_
    rw [BitVec.getLsbD_shiftLeft, BitVec.getLsbD_shiftLeft]
    by_cases h11 : i < 11
    · simp [h11]
    · have hmask : (0x1fffff#32).getLsbD (i - 11) = true := by
        interval_cases i <;> first | omega | rfl
      rw [BitVec.getLsbD_and, hlo _ (by omega), BitVec.getLsbD_and, hmask, Bool.and_true,
        Bool.and_true]
  unfold TC_JOFF
  rw [hw]
  rfl

/-- The 20-bit field of `LUI` and `AUIPC`. -/
theorem uimm_field {op : Nat} (hop : op < 64) (rd : Reg) {imm : Word}
    (himm : imm &&& 0xfffff#32 = imm) :
    TC_OP (opField op ||| regField rd 21 ||| imm) = op ∧
      TC_A (opField op ||| regField rd 21 ||| imm) = rd ∧
      TC_UIMM (opField op ||| regField rd 21 ||| imm) = imm := by
  have hlt : imm.toNat < 2 ^ 20 := by
    rw [← himm, BitVec.toNat_and]
    exact Nat.and_lt_two_pow _ (by decide)
  obtain ⟨hop', hA, hlo⟩ := @wide_fields op hop rd imm (by omega)
  refine ⟨hop', hA, ?_⟩
  unfold TC_UIMM
  refine BitVec.eq_of_getLsbD_eq fun i hi => ?_
  rw [← himm, BitVec.getLsbD_and, BitVec.getLsbD_and]
  by_cases h20 : i < 20
  · rw [himm, hlo i (by omega)]
  · have hz : (0xfffff#32).getLsbD i = false := by
      interval_cases i <;> first | omega | rfl
    rw [hz, Bool.and_false, Bool.and_false]

/-- `LUI` and `AUIPC`. -/
theorem emit_upper (hop : d.op = RISCV_OP_LUI ∨ d.op = RISCV_OP_AUIPC) :
    emit at_ d map len = [opField d.op ||| regField d.rd 21 ||| (d.imm &&& 0xfffff#32)] := by
  obtain ⟨op, rd, rs1, rs2, imm, target, width⟩ := d
  rcases hop with hop | hop
  · simp only at hop
    subst hop
    rfl
  · simp only at hop
    subst hop
    rfl

/-- `JAL`. -/
theorem emit_jal (hop : d.op = RISCV_OP_JAL) :
    emit at_ d map len =
      [opField d.op ||| regField d.rd 21 ||| (delta4 at_ d map len &&& 0x1fffff#32)] := by
  obtain ⟨op, rd, rs1, rs2, imm, target, width⟩ := d
  simp only at hop
  subst hop
  rfl

/-- `NOP` writes nothing. -/
theorem emit_nop (hop : d.op = RISCV_OP_NOP) : emit at_ d map len = [] := by
  obtain ⟨op, rd, rs1, rs2, imm, target, width⟩ := d
  simp only at hop
  subst hop
  rfl

/-- Traps. -/
theorem emit_trap (hop : RISCV_OP_ECALL ≤ d.op ∧ d.op ≤ RISCV_OP_ILLEGAL) :
    emit at_ d map len = [opField d.op] := by
  obtain ⟨op, rd, rs1, rs2, imm, target, width⟩ := d
  unfold RISCV_OP_ECALL RISCV_OP_ILLEGAL at hop
  obtain ⟨h1, h2⟩ := hop
  simp only at h1 h2
  interval_cases op <;> rfl

variable (h : Hooks H) (r : Run H) (p w2 pc inst : Word)

theorem dispatch_lui (hf : Fits d) (hop : d.op = RISCV_OP_LUI) :
    d.next h r pc inst = ((dispatch h r p
        (opField d.op ||| regField d.rd 21 ||| (d.imm &&& 0xfffff#32)) w2).1, .done) ∧
      (dispatch h r p (opField d.op ||| regField d.rd 21 ||| (d.imm &&& 0xfffff#32)) w2).2 =
        (1, .fall 1) := by
  have himm := hf.upper (Or.inl hop)
  have hrd := hf.rd (Or.inr (Or.inl hop))
  obtain ⟨op, rd, rs1, rs2, imm, target, width⟩ := d
  simp only at hop himm hrd ⊢
  subst hop
  rw [himm]
  obtain ⟨hop', hA, hU⟩ := @uimm_field RISCV_OP_LUI (by decide) rd imm himm
  simp only [dispatch, hop', hA, hU, put_eq hrd]
  exact ⟨rfl, rfl⟩

/-- `AUIPC` counts from the address of the op. -/
theorem dispatch_auipc (hf : Fits d) (hop : d.op = RISCV_OP_AUIPC) :
    (d.next h r pc inst).2 = .done ∧
      (dispatch h r p (opField d.op ||| regField d.rd 21 ||| (d.imm &&& 0xfffff#32)) w2).1 =
        (d.next h r (p <<< 2) inst).1 ∧
      (dispatch h r p (opField d.op ||| regField d.rd 21 ||| (d.imm &&& 0xfffff#32)) w2).2 =
        (1, .fall 1) := by
  have himm := hf.upper (Or.inr hop)
  have hrd := hf.rd (Or.inr (Or.inr hop))
  obtain ⟨op, rd, rs1, rs2, imm, target, width⟩ := d
  simp only at hop himm hrd ⊢
  subst hop
  rw [himm]
  obtain ⟨hop', hA, hU⟩ := @uimm_field RISCV_OP_AUIPC (by decide) rd imm himm
  simp only [dispatch, hop', hA, hU, put_eq hrd]
  exact ⟨rfl, rfl, rfl⟩

theorem dispatch_jal (imm : Word) (hop : d.op = RISCV_OP_JAL) :
    d.next h r pc inst = (r.wr d.rd (pc + 4#32), .jump d.target) ∧
      dispatch h r p (opField d.op ||| regField d.rd 21 ||| (imm &&& 0x1fffff#32)) w2 =
        (r.wr d.rd (p <<< 2 + 4#32), 1, .reloc (p + (sext imm 21).sshiftRight 2)) := by
  have hlt : (imm &&& 0x1fffff#32).toNat < 2 ^ 21 := by
    rw [BitVec.toNat_and]
    exact Nat.and_lt_two_pow _ (by decide)
  obtain ⟨op, rd, rs1, rs2, imm', target, width⟩ := d
  simp only at hop ⊢
  subst hop
  obtain ⟨hop', hA, -⟩ := @wide_fields RISCV_OP_JAL (by decide) rd _ hlt
  have hJ := @joff_field RISCV_OP_JAL (by decide) rd imm
  simp only [dispatch, hop', hA, hJ]
  exact ⟨rfl, rfl⟩

theorem dispatch_trap (hop : RISCV_OP_ECALL ≤ d.op ∧ d.op ≤ RISCV_OP_ILLEGAL) :
    d.next h r pc inst = r.raise h pc inst (trapOf d.op) ∧
      dispatch h r p (opField d.op) w2 =
        (((r.fault (p <<< 2) (opField d.op)).trap h (trapOf d.op)).1, 1,
          .trap ((r.fault (p <<< 2) (opField d.op)).trap h (trapOf d.op)).2) := by
  obtain ⟨op, rd, rs1, rs2, imm, target, width⟩ := d
  unfold RISCV_OP_ECALL RISCV_OP_ILLEGAL at hop
  obtain ⟨h1, h2⟩ := hop
  simp only at h1 h2
  have hop' : TC_OP (opField op) = op := by
    interval_cases op <;> decide
  simp only [dispatch, hop', hTrap]
  clear hop'
  interval_cases op
  case «46» => exact ⟨rfl, rfl⟩
  case «47» => exact ⟨rfl, rfl⟩
  case «48» => exact ⟨rfl, rfl⟩

end

end Purv.Purva
