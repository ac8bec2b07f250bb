import Purv.PurvaFrame
import Purv.PurvaTargets

/-!
# The fuel of fused ops

* `emit_op` — an emitted unit starts with a word of its op;
* `Fused` — the units that cover several instructions, with how many they cover;
* `step_fused` — `step` collapses instructions in no other way;
* `step_fuel` — every fused op charges the instructions that it replaced, but the load immediate
  that replaces an `auipc` and its `addi`.
-/

namespace Purv.Purva

open Bits Transcode

variable {H : Type}

/-! ## The first word of a unit -/

theorem regField_lt (r : Reg) {lo : Nat} (hlo : lo ≤ 21) : (regField r lo).toNat < 2 ^ 26 := by
  refine toNat_lt_of_bits fun i hi => ?_
  unfold regField
  rw [BitVec.getLsbD_shiftLeft, BitVec.getLsbD_setWidth,
    BitVec.getLsbD_of_ge r (i - lo) (by omega)]
  simp

theorem and_lt_26 (v : Word) {m : Word} (hm : m.toNat < 2 ^ 26) : (v &&& m).toNat < 2 ^ 26 := by
  rw [BitVec.toNat_and]
  exact lt_of_le_of_lt Nat.and_le_right hm

theorem or_lt_26 {v w : Word} (hv : v.toNat < 2 ^ 26) (hw : w.toNat < 2 ^ 26) :
    (v ||| w).toNat < 2 ^ 26 := by
  rw [BitVec.toNat_or]
  exact Nat.or_lt_two_pow hv hw

/-- The first word, if there is one, has op `op`. -/
def Leads (op : Nat) (ws : List Word) : Prop := ∀ w rest, ws = w :: rest → TC_OP w = op

theorem leads_ite {op : Nat} {P : Prop} [Decidable P] {a b : List Word} (ha : Leads op a)
    (hb : Leads op b) : Leads op (if P then a else b) := by
  split
  · exact ha
  · exact hb

theorem leads_word {op : Nat} (hop : op < 64) {f : Word} (ws : List Word) (hf : f.toNat < 2 ^ 26) :
    Leads op ((opField op ||| f) :: ws) := by
  intro w rest heq
  cases heq
  exact op_of_or hop hf

/-- **An emitted unit starts with a word of its op.** -/
theorem emit_op {at_ : Word} {d : Dec} {map : Nat → Word} {len : Word} (hop : d.op < 64) :
    Leads d.op (emit at_ d map len) := by
  have hrd := regField_lt d.rd (Nat.le_refl 21)
  have hrs1 := @regField_lt d.rs1 16 (by decide)
  have hrs2 := @regField_lt d.rs2 11 (by decide)
  have hsh : ((d.imm &&& 31#32) <<< 6).toNat < 2 ^ 26 := by
    have h31 : (d.imm &&& 31#32).toNat ≤ 31 := by
      rw [BitVec.toNat_and]
      exact Nat.and_le_right
    rw [BitVec.toNat_shiftLeft, Nat.shiftLeft_eq]
    omega
  have himm : ∀ v m : Word, m.toNat < 2 ^ 26 → (v &&& m).toNat < 2 ^ 26 := fun v m => and_lt_26 v
  have hwide : ∀ v m : Word, m.toNat < 2 ^ 26 →
      (regField d.rd 21 ||| (v &&& m)).toNat < 2 ^ 26 :=
    fun v m hm => or_lt_26 hrd (himm v m hm)
  have htwo : ∀ v m : Word, m.toNat < 2 ^ 26 →
      (regField d.rd 21 ||| (regField d.rs1 16 ||| (v &&& m))).toNat < 2 ^ 26 :=
    fun v m hm => or_lt_26 hrd (or_lt_26 hrs1 (himm v m hm))
  have hthree : ∀ f : Word, f.toNat < 2 ^ 26 →
      (regField d.rd 21 ||| (regField d.rs1 16 ||| (regField d.rs2 11 ||| f))).toNat < 2 ^ 26 :=
    fun f hf => or_lt_26 hrd (or_lt_26 hrs1 (or_lt_26 hrs2 hf))
  unfold emit
  simp only [BitVec.or_assoc]
  refine leads_ite (leads_word hop _ (or_lt_26 hrd (or_lt_26 hrs1 hrs2))) ?_
  refine leads_ite (leads_word hop _ (htwo _ _ (by decide))) ?_
  refine leads_ite (leads_word hop _ (htwo _ _ (by decide))) ?_
  refine leads_ite (leads_word hop _ (or_lt_26 (regField_lt d.rs2 (Nat.le_refl 21))
    (or_lt_26 hrs1 (himm _ _ (by decide))))) ?_
  refine leads_ite (leads_word hop _ (himm _ _ (by decide))) ?_
  refine leads_ite (leads_word hop _ (hwide _ _ (by decide))) ?_
  refine leads_ite (leads_word hop _ (hthree _ hsh)) ?_
  refine leads_ite (leads_word hop _ (hthree _ (himm _ _ (by decide)))) ?_
  refine leads_ite (leads_word hop _ (hthree _ (himm _ _ (by decide)))) ?_
  refine leads_ite (leads_word hop _ (hthree _ (himm _ _ (by decide)))) ?_
  refine leads_ite (leads_word hop _ (htwo _ _ (by decide))) ?_
  refine leads_ite (leads_word hop _ (htwo _ _ (by decide))) ?_
  refine leads_ite (leads_word hop _ (or_lt_26 (regField_lt d.rs1 (Nat.le_refl 21))
    (or_lt_26 (@regField_lt d.rs2 16 (by decide)) (himm _ _ (by decide))))) ?_
  refine leads_ite (leads_word hop _ (hwide _ _ (by decide))) ?_
  refine leads_ite (leads_word hop _ (htwo _ _ (by decide))) ?_
  refine leads_ite (leads_word hop _ (hwide _ _ (by decide))) ?_
  refine leads_ite (fun w rest heq => nomatch heq) ?_
  have hzero := @leads_word d.op hop 0#32 [] (by decide)
  rwa [BitVec.or_zero] at hzero

/-- Every op but `NOP` is emitted. -/
theorem emit_cons (at_ : Word) {d : Dec} (map : Nat → Word) (len : Word) (hop : d.op < 64)
    (hnop : d.op ≠ RISCV_OP_NOP) :
    ∃ w rest, emit at_ d map len = w :: rest ∧ TC_OP w = d.op := by
  have hlen := emit_length at_ d map len
  cases he : emit at_ d map len with
  | nil =>
    rw [he, opWords, if_neg hnop] at hlen
    split at hlen
    · cases hlen
    · cases hlen
  | cons w rest => exact ⟨w, rest, rfl, emit_op hop w rest he⟩

/-! ## Units that cover several instructions -/

section
variable {code : Nat → Byte} {len off : Word} {targets : Targets} {out d : Dec} {wd : Word}

/-- `Covers op imm n`: an op with this immediate replaces `n` instructions. -/
inductive Covers : Nat → Word → Nat → Prop
  | prologue {rmask N : Word} {n : Nat} : ¬ N > 0x1fff#32 → (maskRegs rmask).length = n →
      Covers RISCV_OP_PROLOGUE (frameEnc rmask N) (n + 1)
  | epilogue {rmask N : Word} {n : Nat} : ¬ N > 0x1fff#32 → (maskRegs rmask).length = n →
      Covers RISCV_OP_EPILOGUE (frameEnc rmask N) (n + 2)
  | pair {op : Nat} {imm : Word} : (op = RISCV_OP_SHADD ∨ op = RISCV_OP_LWX ∨ op = RISCV_OP_LWLW ∨
      op = RISCV_OP_LWSW ∨ op = RISCV_OP_LW_BZ ∨ op = RISCV_OP_LBU_BZ) → Covers op imm 2
  | vcall {imm : Word} : Covers RISCV_OP_VCALL imm 3

theorem Covers.op_ne {op : Nat} {imm : Word} {n : Nat} (hc : Covers op imm n) :
    op < 64 ∧ op ≠ RISCV_OP_NOP := by
  cases hc with
  | prologue => decide
  | epilogue => decide
  | vcall => decide
  | pair hop =>
    rcases hop with hop | hop | hop | hop | hop | hop
    all_goals
      rw [hop]
      decide

/-- The mask of a canonical set has a bit for each save. -/
theorem mask_length {saves : List (Reg × Word)} (hrank : ∀ s ∈ saves, 0 ≤ rankOf s.1)
    {N rmask : Word} (hc : frameCanonical saves N = some rmask) :
    (maskRegs rmask).length = saves.length := by
  obtain ⟨hperm, -, -⟩ := frameCanonical_slots hrank hc
  rw [hperm.length_eq, slots_length]

theorem tryFusePrologue_covers (hf : tryFusePrologue code len off targets out = some (d, wd)) :
    Covers d.op d.imm (wd.toNat / 4) ∧ (decode code off).op = RISCV_OP_ADDI := by
  obtain ⟨N, rmask, hop, -, -, -, hN, hc, hdop, hdimm, hwidth⟩ := tryFusePrologue_some hf
  obtain ⟨-, hread⟩ := prologueSaves_read code len targets 13 (off + 4#32)
  rw [hdop, hdimm, hwidth, Nat.add_comm]
  exact ⟨.prologue hN (mask_length hread.rank hc), hop⟩

theorem tryFuseEpilogue_covers (hf : tryFuseEpilogue code len off targets out = some (d, wd)) :
    Covers d.op d.imm (wd.toNat / 4) ∧ (decode code off).op = RISCV_OP_LW := by
  obtain ⟨N, rmask, o, -, -, -, -, -, hN, -, -, -, -, hc, hdop, hdimm, hwidth⟩ :=
    tryFuseEpilogue_some hf
  obtain ⟨-, hread⟩ := epilogueLoads_read code len targets off 13 off
  have hne : epilogueLoads code len off targets 13 off ≠ [] := by
    intro hnil
    unfold tryFuseEpilogue at hf
    simp only [hnil, true_or, if_true] at hf
    cases hf
  rw [hdop, hdimm, hwidth]
  refine ⟨.epilogue hN (mask_length hread.rank hc), ?_⟩
  cases hl : epilogueLoads code len off targets 13 off with
  | nil => exact absurd hl hne
  | cons x l =>
    rw [hl] at hread
    exact hread.1

theorem tryFusePair_covers (hf : tryFusePair code len off targets out = some (d, wd)) :
    Covers d.op d.imm (wd.toNat / 4) ∧ (decode code off).op ≠ RISCV_OP_AUIPC := by
  unfold tryFusePair at hf
  simp only at hf
  split at hf
  · cases hf
  split at hf
  · cases hf
  split at hf
  · rename_i hd
    cases hf
    obtain ⟨ha, -, -, o, -, -, rfl⟩ := fuseShadd_some hd
    exact ⟨.pair (Or.inl rfl), by rw [ha]; decide⟩
  split at hf
  · rename_i hd
    cases hf
    unfold fuseLwx at hd
    split at hd
    · rename_i ha
      cases hd
      exact ⟨.pair (Or.inr (Or.inl rfl)), by rw [ha.1]; decide⟩
    · cases hd
  split at hf
  · rename_i hd
    split at hd
    case isFalse => cases hd
    rename_i ha
    obtain ⟨-, -, -, hop, -⟩ := fuseLwlw_some hd 0
    split at hf
    · cases hf
      exact ⟨.vcall, by rw [ha.1]; decide⟩
    · cases hf
      exact ⟨.pair (Or.inr (Or.inr (Or.inl hop))), by rw [ha.1]; decide⟩
  split at hf
  · rename_i hd
    cases hf
    split at hd
    case isFalse => cases hd
    rename_i ha
    unfold fuseLwsw at hd
    split at hd
    · cases hd
      exact ⟨.pair (Or.inr (Or.inr (Or.inr (Or.inl rfl)))), by rw [ha.1]; decide⟩
    · cases hd
  split at hf
  · rename_i hd
    cases hf
    obtain ⟨ha, -, -, -, rfl⟩ := fuseBz_some hd
    rcases ha with ha | ha
    · refine ⟨.pair (Or.inr (Or.inr (Or.inr (Or.inr (Or.inl (if_pos ha)))))), ?_⟩
      rw [ha]
      decide
    · have hne : ¬ (decode code off).op = RISCV_OP_LW := by
        rw [ha]
        decide
      refine ⟨.pair (Or.inr (Or.inr (Or.inr (Or.inr (Or.inr (if_neg hne)))))), ?_⟩
      rw [ha]
      decide
  · cases hf

theorem tryFuseLa_two (hf : tryFuseLa code len off targets out = some (d, wd)) :
    (d.op = RISCV_OP_LI_LO ∨ d.op = RISCV_OP_LI_HI) ∧ wd = 8#32 ∧
      (decode code off).op = RISCV_OP_AUIPC := by
  unfold tryFuseLa at hf
  simp only at hf
  split at hf
  · cases hf
  split at hf
  · cases hf
  split at hf
  · cases hf
  rename_i ha
  rw [Classical.not_not] at ha
  split at hf
  · cases hf
  split at hf
  · cases hf
  split at hf
  · cases hf
    exact ⟨Or.inl rfl, rfl, ha⟩
  split at hf
  · cases hf
    exact ⟨Or.inr rfl, rfl, ha⟩
  · cases hf

/-- **`step` collapses instructions in no other way.** -/
theorem step_covers (hs : step code len off targets out = (d, wd)) :
    (Covers d.op d.imm (wd.toNat / 4) ∧ (decode code off).op ≠ RISCV_OP_AUIPC) ∨
      ((d.op = RISCV_OP_LI_LO ∨ d.op = RISCV_OP_LI_HI) ∧ wd = 8#32 ∧
        (decode code off).op = RISCV_OP_AUIPC) ∨
      (d = foldAuipc off (decode code off) ∧ wd = 4#32) := by
  unfold step at hs
  split at hs
  · rename_i hf
    subst hs
    obtain ⟨hcov, hop⟩ := tryFusePrologue_covers hf
    exact Or.inl ⟨hcov, by rw [hop]; decide⟩
  split at hs
  · rename_i hf
    subst hs
    obtain ⟨hcov, hop⟩ := tryFuseEpilogue_covers hf
    exact Or.inl ⟨hcov, by rw [hop]; decide⟩
  split at hs
  · rename_i hf
    subst hs
    exact Or.inr (Or.inl (tryFuseLa_two hf))
  split at hs
  · rename_i hf
    subst hs
    exact Or.inl (tryFusePair_covers hf)
  · cases hs
    exact Or.inr (Or.inr ⟨rfl, decode_width code off⟩)

end

/-! ## What an op charges -/

section
variable (h : Hooks H) (r : Run H) (p w2 : Word) {w : Word}

/-- A pair charges two, on either way out. -/
theorem dispatch_pair (hop : TC_OP w = RISCV_OP_SHADD ∨ TC_OP w = RISCV_OP_LWX ∨
    TC_OP w = RISCV_OP_LWLW ∨ TC_OP w = RISCV_OP_LWSW ∨ TC_OP w = RISCV_OP_LW_BZ ∨
    TC_OP w = RISCV_OP_LBU_BZ) : (dispatch h r p w w2).2.1 = 2 := by
  unfold RISCV_OP_SHADD RISCV_OP_LWX RISCV_OP_LWLW RISCV_OP_LWSW RISCV_OP_LW_BZ
    RISCV_OP_LBU_BZ at hop
  rcases hop with hop | hop | hop | hop | hop | hop
  · simp only [dispatch, hop]
  · simp only [dispatch, hop]
  · simp only [dispatch, hop]
  · simp only [dispatch, hop]
  · simp only [dispatch, hop, hLoadBz]
  · simp only [dispatch, hop, hLoadBz]

/-- A frame charges its registers, on the path inside the handler and on the one out of line. -/
theorem dispatch_frame :
    (TC_OP w = RISCV_OP_PROLOGUE →
      (dispatch h r p w w2).2.1 = (maskRegs (w >>> 13)).length + 1) ∧
    (TC_OP w = RISCV_OP_EPILOGUE →
      (dispatch h r p w w2).2.1 = (maskRegs (w >>> 13)).length + 2) := by
  unfold RISCV_OP_PROLOGUE RISCV_OP_EPILOGUE
  constructor
  · intro hop
    simp only [dispatch, hop, prologue]
  · intro hop
    simp only [dispatch, hop, epilogue]

theorem dispatch_li (hop : TC_OP w = RISCV_OP_LI_LO ∨ TC_OP w = RISCV_OP_LI_HI) :
    (dispatch h r p w w2).2.1 = 1 := by
  unfold RISCV_OP_LI_LO RISCV_OP_LI_HI at hop
  rcases hop with hop | hop
  · simp only [dispatch, hop]
  · simp only [dispatch, hop]

/-- **An op charges the instructions that it covers.** -/
theorem covers_charge {at_ : Word} {d : Dec} {map : Nat → Word} {len : Word} {n : Nat}
    (hc : Covers d.op d.imm n) :
    ∃ w rest, emit at_ d map len = w :: rest ∧
      ∀ (h : Hooks H) (r : Run H) (p w2 : Word), (dispatch h r p w w2).2.1 = n := by
  obtain ⟨op, rd, rs1, rs2, imm, target, width⟩ := d
  simp only at hc
  cases hc with
  | prologue hN hn =>
    rename_i rmask N n
    obtain ⟨hop, hmask, -⟩ := @frame_word RISCV_OP_PROLOGUE (by decide) rmask N hN
    refine ⟨_, [], emit_frame at_ map len (Or.inl rfl), fun h r p w2 => ?_⟩
    rw [(dispatch_frame h r p w2).1 hop, hmask, hn]
  | epilogue hN hn =>
    rename_i rmask N n
    obtain ⟨hop, hmask, -⟩ := @frame_word RISCV_OP_EPILOGUE (by decide) rmask N hN
    refine ⟨_, [], emit_frame at_ map len (Or.inr rfl), fun h r p w2 => ?_⟩
    rw [(dispatch_frame h r p w2).2 hop, hmask, hn]
  | pair hop =>
    have hlt := (@Covers.pair op imm hop).op_ne
    obtain ⟨w, rest, he, hw⟩ :=
      @emit_cons at_ ⟨op, rd, rs1, rs2, imm, target, width⟩ map len hlt.1 hlt.2
    exact ⟨w, rest, he, fun h r p w2 => dispatch_pair h r p w2 (by rwa [hw])⟩
  | vcall =>
    obtain ⟨w, rest, he, hw⟩ :=
      @emit_cons at_ ⟨RISCV_OP_VCALL, rd, rs1, rs2, imm, target, width⟩ map len
        (show RISCV_OP_VCALL < 64 by decide) (show RISCV_OP_VCALL ≠ RISCV_OP_NOP by decide)
    refine ⟨w, rest, he, fun h r p w2 => ?_⟩
    unfold RISCV_OP_VCALL at hw
    simp only [dispatch, hw]

end

/-- **Fused ops charge the instructions that they replaced**, whatever the state and the way out, but
for an `auipc` and its `addi`. -/
theorem step_fuel {code : Nat → Byte} {len off : Word} {targets : Targets} {out d : Dec} {wd : Word}
    (hs : step code len off targets out = (d, wd)) (hfused : 2 ≤ wd.toNat / 4) (at_ : Word)
    (map : Nat → Word) (clen : Word) :
    ∃ w rest, emit at_ d map clen = w :: rest ∧ ∀ (h : Hooks H) (r : Run H) (p w2 : Word),
      (dispatch h r p w w2).2.1 = wd.toNat / 4 ↔ (decode code off).op ≠ RISCV_OP_AUIPC := by
  rcases step_covers hs with ⟨hcov, hop⟩ | ⟨hop, hwd, hauipc⟩ | ⟨-, hwd⟩
  · obtain ⟨w, rest, he, hcharge⟩ := @covers_charge H at_ d map clen _ hcov
    exact ⟨w, rest, he, fun h r p w2 => iff_of_true (hcharge h r p w2) hop⟩
  · have hlt : d.op < 64 ∧ d.op ≠ RISCV_OP_NOP := by
      rcases hop with hop | hop
      all_goals
        rw [hop]
        decide
    obtain ⟨w, rest, he, hw⟩ := emit_cons at_ map clen hlt.1 hlt.2
    refine ⟨w, rest, he, fun h r p w2 => iff_of_false ?_ (fun hne => hne hauipc)⟩
    rw [dispatch_li h r p w2 (by rwa [hw]), hwd]
    decide
  · rw [hwd] at hfused
    exact absurd hfused (by decide)

/-- `auipc x5, 0x80000; addi x5, x5, 0`: two instructions, one unit of fuel. -/
theorem la_charges_one :
    let code : Nat → Byte := fun i => (0x0002829380000297#64).extractLsb' (8 * i) 8
    let d : Dec := ⟨RISCV_OP_LI_HI, 5#5, 0#5, 0#5, 0#32, 0#32, 0#32⟩
    step code 8#32 0#32 ⟨fun _ => false, 2#32⟩ .zero = (d, 8#32) ∧
      ∃ w, emit 0#32 d (fun _ => TC_SENTINEL) 8#32 = [w] ∧
        (dispatch Hooks.null ⟨.boot [] 64, []⟩ 0#32 w 0#32).2.1 = 1 ∧ (8#32).toNat / 4 = 2 := by
  refine ⟨by decide, _, rfl, by decide, rfl⟩

/-- A use of `step_fuel`: `slli x5, x6, 2; add x5, x7, x5`. -/
theorem step_fuel_shadd :
    let code : Nat → Byte := fun i => (0x005382b300231293#64).extractLsb' (8 * i) 8
    let d : Dec := ⟨RISCV_OP_SHADD, 5#5, 7#5, 6#5, 2#32, 0#32, 0#32⟩
    step code 8#32 0#32 ⟨fun _ => false, 2#32⟩ .zero = (d, 8#32) ∧
      ∃ w rest, emit 0#32 d (fun _ => TC_SENTINEL) 8#32 = w :: rest ∧
        (dispatch Hooks.null ⟨.boot [] 64, []⟩ 0#32 w 0#32).2.1 = 2 := by
  intro code d
  have hs : step code 8#32 0#32 ⟨fun _ => false, 2#32⟩ .zero = (d, 8#32) := by decide
  obtain ⟨w, rest, he, hfuel⟩ :=
    @step_fuel Unit code 8#32 0#32 ⟨fun _ => false, 2#32⟩ .zero d 8#32 hs (by decide) 0#32
      (fun _ => TC_SENTINEL) 8#32
  exact ⟨hs, w, rest, he, (hfuel Hooks.null ⟨.boot [] 64, []⟩ 0#32 0#32).2 (by decide)⟩

end Purv.Purva
